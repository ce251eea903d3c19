import TreePointer.Address.Resolution
import TreePointer.Proofs.Address.Correspondence

/-!
# Evaluations in forests that answer alike

If two forests answer alike what an evaluation may ask them, about nodes that correspond, the
evaluation of any address agrees in them. The two evaluations read the same text, so their lexers
never part; what they have found corresponds, entry by entry. This is shown of one production after
the other, for expressions with the evaluator inside them given, and then by induction on the bound
that ties the knot.

* `SameResult`: what two productions give, as long as they read the same.
* `evaluateNext_agrees`: expressions inside each other to any depth.
* `evaluate_agreesIn`: whole addresses, and a bound on their faults; `evaluate_agrees` is the case of
  forests that share their nodes.
* `resolve_agrees`: the range of an address.
-/

namespace TreePointer

variable {E : Fault → Prop} {f g : Forest} {d d' : Document} {M : Node → Node → Prop}
  {R : Range → Range → Prop}

/-! ## Reading that asks no forest -/

namespace Expression

theorem skipArguments_fails (depth fuel : Nat) (l : Lexer) :
    IsReading (skipArguments depth fuel l) := by
  induction fuel generalizing depth l with
  | zero =>
    cases depth with
    | zero => exact .ok l
    | succ depth => exact .error (.malformed _ _)
  | succ fuel ih =>
    cases depth with
    | zero => exact .ok l
    | succ depth =>
      refine (l.expect_fails _).bind fun ⟨t, l⟩ _ => ?_
      dsimp only
      split <;> exact ih _ _

theorem skipCall_fails (bound : Nat) (l : Lexer) : IsReading (skipCall bound l) :=
  (l.expectFence_fails _).bind fun _ _ => skipArguments_fails _ _ _

theorem refuseEnd_fails (fault : UnsupportedFault) (l : Lexer) : IsReading (refuseEnd fault l) := by
  refine l.peek_fails.bind fun _ _ => ?_
  split
  · exact .error (.unsupported _)
  · exact .ok _

theorem expectNoSearch_fails (l : Lexer) : IsReading (expectNoSearch l) := by
  refine (l.expect_fails _).bind fun ⟨t, l⟩ _ => ?_
  cases t with
  | literal s =>
    dsimp only
    split
    · exact .ok _
    · exact .error (.unsupported _)
  | _ => exact .error (.malformed _ _)

theorem stringRangeArguments_fails (l : Lexer) : IsReading (stringRangeArguments l) := by
  refine l.expectComma_fails.bind fun l _ => ?_
  refine (expectNoSearch_fails l).bind fun l _ => ?_
  refine (refuseEnd_fails _ l).bind fun l _ => ?_
  refine l.expectComma_fails.bind fun l _ => ?_
  refine (l.expectInteger_fails _).bind fun ⟨_, l⟩ _ => ?_
  refine (refuseEnd_fails _ l).bind fun l _ => ?_
  refine l.expectComma_fails.bind fun l _ => ?_
  exact (l.expectInteger_fails _).bind fun _ _ => .ok _

end Expression

namespace Address

theorem skipPart_fails (l : Lexer) : IsReading (skipPart l) := by
  unfold skipPart
  split
  · exact .ok _
  · next e _ he => exact .error (l.skipData_fails e (congrArg Prod.fst he))

theorem expectEnd_fails (l : Lexer) : IsReading (expectEnd l) := by
  refine l.next_fails.bind fun ⟨t, l⟩ _ => ?_
  cases t with
  | none => exact .ok _
  | some t => exact .error (.malformed _ _)

end Address

/-! ## Productions that read the same -/

/-- Two productions give what corresponds and have read the same. -/
def SameResult (E : Fault → Prop) (M : Node → Node → Prop) (R : Range → Range → Prop) :
    Result → Result → Prop :=
  AgreesIn E fun x y => Context.Corresponds M R x.1 y.1 ∧ x.2 = y.2

namespace SameResult

variable {α : Type}

theorem ok {ctx ctx' : Context} (h : ctx.Corresponds M R ctx') (l : Lexer) :
    SameResult E M R (.ok (ctx, l)) (.ok (ctx', l)) :=
  AgreesIn.ok ⟨h, rfl⟩

theorem error {e : Fault} (h : E e) : SameResult E M R (.error e) (.error e) :=
  AgreesIn.error h

/-- What reads on in the same way from what corresponds. -/
theorem bind {S : α → α → Prop} {x y : Result} {h k : Context × Lexer → Except Fault α}
    (hxy : SameResult E M R x y)
    (hhk : ∀ ctx ctx' l, Context.Corresponds M R ctx ctx' → AgreesIn E S (h (ctx, l)) (k (ctx', l))) :
    AgreesIn E S (x >>= h) (y >>= k) :=
  AgreesIn.bind hxy fun ⟨ctx, l⟩ ⟨ctx', l'⟩ ⟨hctx, hl⟩ => by
    obtain rfl : l = l' := hl
    exact hhk ctx ctx' l hctx

end SameResult

namespace Expression

/-- Evaluators with one bound that agree on what corresponds. -/
def Evaluator.Corresponds (E : Fault → Prop) (M : Node → Node → Prop) (R : Range → Range → Prop)
    (inner inner' : Evaluator) : Prop :=
  inner'.bound = inner.bound ∧
    ∀ e ctx ctx' l, Context.Corresponds M R ctx ctx' →
      SameResult E M R (inner.run e ctx l) (inner'.run e ctx' l)

variable {inner inner' : Evaluator} {ctx ctx' : Context} {l : Lexer}

/-! ## Location steps -/

theorem nodesOf_agrees (h : CorrespondenceIn E f g d d' M R) (hctx : ctx.Corresponds M R ctx') :
    AgreesIn E (List.Forall₂ M) (nodesOf ctx) (nodesOf ctx') := by
  refine AgreesIn.mapM hctx fun e e' he => ?_
  cases he with
  | node hn => exact .ok hn
  | range hr => exact .error h.unsupported
  | literal s => exact .error h.unsupported
  | number x => exact .error h.unsupported
  | boolean b => exact .error h.unsupported

section Steps

variable (h : CorrespondenceIn E f g d d' M R) (hinner : Evaluator.Corresponds E M R inner inner')

include h hinner

theorem predicates_agrees (hctx : ctx.Corresponds M R ctx') {name : String} {ns ns' : List Node}
    (hns : List.Forall₂ M ns ns') (fuel : Nat) {candidates candidates' : Option Context}
    (hc : Option.Rel (Context.Corresponds M R) candidates candidates') :
    AgreesIn E (fun x y => Option.Rel (Context.Corresponds M R) x.1 y.1 ∧ x.2 = y.2)
      (predicates f inner (accepts f d name) ns ctx fuel candidates l)
      (predicates g inner' (accepts g d' name) ns' ctx' fuel candidates' l) := by
  induction fuel generalizing candidates candidates' l with
  | zero => exact .ok ⟨hc, rfl⟩
  | succ fuel ih =>
    simp only [predicates]
    refine h.bind_isReading l.peek_fails fun ⟨t, l⟩ => ?_
    split
    · refine h.bind_isReading (Lexer.next_fails _) fun ⟨_, l⟩ => ?_
      refine (hinner.2 _ _ _ l hctx).bind fun value value' l hvalue => ?_
      refine h.bind_isReading (l.expectFence_fails _) fun l => ?_
      rw [Predicate.ofContext_eq hvalue]
      exact ih (Predicate.apply_corresponds h.toCorrespondence hns hc _)
    · exact .ok ⟨hc, rfl⟩

theorem nameStep_agrees (hctx : ctx.Corresponds M R ctx') (name : String) :
    SameResult E M R (nameStep f d inner name ctx l) (nameStep g d' inner' name ctx' l) := by
  simp only [nameStep]
  refine (nodesOf_agrees h hctx).bind fun ns ns' hns => ?_
  rw [hinner.1]
  refine (predicates_agrees h hinner hctx hns _ .none).bind fun ⟨left, l⟩ ⟨left', l'⟩ hxy => ?_
  obtain ⟨hleft, rfl⟩ : Option.Rel (Context.Corresponds M R) left left' ∧ l = l' := hxy
  refine SameResult.ok ?_ l
  cases hleft with
  | none => exact h.matching_corresponds name hns
  | some hc => exact hc

theorem axisStep_agrees (hctx : ctx.Corresponds M R ctx') (axis : String) :
    SameResult E M R (axisStep f d inner axis ctx l) (axisStep g d' inner' axis ctx' l) := by
  unfold axisStep
  split
  · exact .error h.unsupported
  · refine h.bind_isReading l.next_fails fun ⟨t, l⟩ => ?_
    split
    · refine h.bind_isReading (Lexer.expect_fails _ _) fun ⟨t, l⟩ => ?_
      cases t with
      | nameTest name => exact nameStep_agrees h hinner hctx name
      | nodeType _ => exact .error h.unsupported
      | _ => exact .error h.malformed
    · exact .error h.malformed

/-! ## Ranges from one place to another -/

theorem rangeFrom_agrees {entry entry' : Location} (he : entry.Corresponds M R entry') :
    AgreesIn E (fun x y => Location.Corresponds M R x.1 y.1 ∧ x.2 = y.2) (rangeFrom f inner entry l)
      (rangeFrom g inner' entry' l) := by
  simp only [rangeFrom]
  refine (Location.toRange_agrees h he).bind fun r r' hr => ?_
  refine (hinner.2 _ _ _ l (.cons he .nil)).bind fun target target' l htarget => ?_
  cases htarget with
  | nil => exact .ok ⟨.range (h.collapse _ _ true hr), rfl⟩
  | cons hlast hrest =>
    cases hrest with
    | nil =>
      refine (Location.toRange_agrees h hlast).bind fun s s' hs => ?_
      exact (h.make_in hr hs).bind fun _ _ hmade => .ok ⟨.range hmade, rfl⟩
    | cons _ _ => exact .error h.unsupported

theorem rangesFrom_agrees (hctx : ctx.Corresponds M R ctx') :
    SameResult E M R (rangesFrom f inner l ctx) (rangesFrom g inner' l ctx') := by
  simp only [rangesFrom]
  -- what was found so far corresponds, in reverse
  refine SameResult.bind (AgreesIn.foldlM hctx (fun s t e e' hst he => ?_) ⟨.nil, rfl⟩)
    fun done done' l hdone => SameResult.ok (List.forall₂_reverse_iff.mpr hdone) l
  refine (rangeFrom_agrees h hinner he).bind fun x y hxy => ?_
  exact .ok ⟨.cons hxy.1 hst.1, hxy.2⟩

theorem rangeTo_agrees (hctx : ctx.Corresponds M R ctx') :
    SameResult E M R (rangeTo f inner ctx l) (rangeTo g inner' ctx' l) := by
  cases hctx with
  | nil =>
    simp only [rangeTo, hinner.1]
    exact h.bind_isReading (skipCall_fails _ l) fun l => SameResult.ok .nil l
  | cons he hrest =>
    simp only [rangeTo]
    refine h.bind_isReading (l.expectFence_fails _) fun opened => ?_
    refine (rangesFrom_agrees h hinner (.cons he hrest)).bind fun ranges ranges' l hranges => ?_
    exact h.bind_isReading (l.expectFence_fails _) fun l => SameResult.ok hranges l

/-! ## Location paths -/

theorem step_agrees (hctx : ctx.Corresponds M R ctx') (token : Token) :
    SameResult E M R (step f d inner token ctx l) (step g d' inner' token ctx' l) := by
  cases token with
  | dot => exact .ok hctx l
  | dotDot =>
    refine (nodesOf_agrees h hctx).bind fun ns ms hms => ?_
    exact SameResult.ok (h.parents_corresponds hms) l
  | functionName name =>
    simp only [step]
    split
    · exact rangeTo_agrees h hinner hctx
    · exact .error h.unsupported
  | axisName axis => exact axisStep_agrees h hinner hctx axis
  | nameTest name => exact nameStep_agrees h hinner hctx name
  | «at» | nodeType _ => exact .error h.unsupported
  | _ => exact .error h.malformed

theorem steps_agrees (fuel : Nat) {ctx ctx' : Context} (hctx : ctx.Corresponds M R ctx') (l : Lexer) :
    SameResult E M R (steps f d inner fuel ctx l) (steps g d' inner' fuel ctx' l) := by
  induction fuel generalizing ctx ctx' l with
  | zero => exact .ok hctx l
  | succ fuel ih =>
    simp only [steps]
    refine h.bind_isReading l.peek_fails fun ⟨t, l⟩ => ?_
    split
    · exact .error h.unsupported
    · refine h.bind_isReading (Lexer.next_fails _) fun ⟨_, l⟩ => ?_
      refine h.bind_isReading (l.expect_fails _) fun ⟨t, l⟩ => ?_
      exact (step_agrees h hinner hctx t).bind fun ctx ctx' l hctx => ih hctx l
    · exact SameResult.ok hctx _

theorem locationPath_agrees (hctx : ctx.Corresponds M R ctx') (token : Token) :
    SameResult E M R (locationPath f d inner token ctx l)
      (locationPath g d' inner' token ctx' l) := by
  simp only [locationPath, hinner.1]
  exact (step_agrees h hinner hctx token).bind fun ctx ctx' l hctx =>
    steps_agrees h hinner _ hctx l

theorem absolutePath_agrees :
    SameResult E M R (absolutePath f d inner l) (absolutePath g d' inner' l) := by
  have hroot : Context.Corresponds M R [.node d.root] [.node d'.root] := .cons (.node h.root) .nil
  simp only [absolutePath]
  refine h.bind_isReading l.peek_fails fun ⟨t, l⟩ => ?_
  split
  · refine h.bind_isReading (l.expect_fails _) fun ⟨t, l⟩ => ?_
    exact locationPath_agrees h hinner hroot t
  · exact SameResult.ok hroot l

/-! ## Functions -/

omit hinner in
theorem byIds_corresponds (ids : String) :
    Context.Corresponds M R (byIds f d ids) (byIds g d' ids) := by
  have hfound : List.Forall₂ M
      ((words ids.toList).filterMap fun id => d.elementById? f (String.ofList id))
      ((words ids.toList).filterMap fun id => d'.elementById? g (String.ofList id)) := by
    refine List.rel_filterMap (R := Eq) ?_ (List.forall₂_same.mpr fun _ _ => rfl)
    rintro id _ rfl
    exact h.byId (String.ofList id)
  exact .of_nodes (forall₂_eraseDups h.one_to_one hfound)

omit hinner in
theorem idCall_agrees : SameResult E M R (idCall f d l) (idCall g d' l) := by
  simp only [idCall]
  refine h.bind_isReading (l.expect_fails _) fun ⟨t, l⟩ => ?_
  cases t with
  | literal s => exact SameResult.ok (byIds_corresponds h s) l
  | _ => exact .error h.malformed

omit hinner in
theorem stringRanges_agrees (start length : Nat) (hctx : ctx.Corresponds M R ctx') :
    AgreesIn E (Context.Corresponds M R) (stringRanges f start length ctx)
      (stringRanges g start length ctx') := by
  induction hctx with
  | nil => exact .ok .nil
  | cons he _ ih =>
    cases he with
    | node hn =>
      simp only [stringRanges]
      refine (h.stringRange_in hn).bind fun found found' hfound => ?_
      refine ih.bind fun others others' hothers => .ok ?_
      cases hfound with
      | none => exact hothers
      | some hr => exact .cons (.range hr) hothers
    | _ => exact .error h.unsupported

theorem stringRangeCall_agrees (hctx : ctx.Corresponds M R ctx') :
    SameResult E M R (stringRangeCall f inner ctx l) (stringRangeCall g inner' ctx' l) := by
  simp only [stringRangeCall]
  refine (hinner.2 _ _ _ l hctx).bind fun locations locations' l hlocations => ?_
  refine h.bind_isReading (stringRangeArguments_fails l) fun ⟨(start, length), l⟩ => ?_
  exact (stringRanges_agrees h start length hlocations).bind fun _ _ hranges =>
    SameResult.ok hranges l

omit hinner in
theorem pointOf_agrees (toStart : Bool) {entry entry' : Location} (he : entry.Corresponds M R entry') :
    AgreesIn E (Location.Corresponds M R) (pointOf f toStart entry) (pointOf g toStart entry') := by
  simp only [pointOf]
  exact (Location.toRange_agrees h he).bind fun r r' hr => .ok (.range (h.collapse r r' toStart hr))

theorem pointCall_agrees (toStart : Bool) (hctx : ctx.Corresponds M R ctx') :
    SameResult E M R (pointCall f inner toStart ctx l) (pointCall g inner' toStart ctx' l) := by
  simp only [pointCall]
  refine (hinner.2 _ _ _ l hctx).bind fun locations locations' l hlocations => ?_
  refine (AgreesIn.mapM hlocations fun _ _ he => pointOf_agrees h toStart he).bind fun _ _ hp => ?_
  exact SameResult.ok hp l

theorem arguments_agrees (name : String) (hctx : ctx.Corresponds M R ctx') :
    SameResult E M R (arguments f d inner name ctx l) (arguments g d' inner' name ctx' l) := by
  unfold arguments
  split
  · exact idCall_agrees h
  · split
    · exact stringRangeCall_agrees h hinner hctx
    · split
      · exact pointCall_agrees h hinner true hctx
      · split
        · exact pointCall_agrees h hinner false hctx
        · exact .error h.unsupported

theorem functionCall_agrees (name : String) (hctx : ctx.Corresponds M R ctx') :
    SameResult E M R (functionCall f d inner name ctx l) (functionCall g d' inner' name ctx' l) := by
  simp only [functionCall]
  refine h.bind_isReading (l.expectFence_fails _) fun l => ?_
  refine (arguments_agrees h hinner name hctx).bind fun ctx ctx' l hctx => ?_
  exact h.bind_isReading (l.expectFence_fails _) fun l => SameResult.ok hctx l

/-! ## Expressions -/

theorem pathFrom_agrees (hctx : ctx.Corresponds M R ctx') :
    SameResult E M R (pathFrom f d inner ctx l) (pathFrom g d' inner' ctx' l) := by
  simp only [pathFrom]
  refine h.bind_isReading l.peek_fails fun ⟨t, l⟩ => ?_
  split
  · exact .error h.unsupported
  · refine h.bind_isReading (Lexer.next_fails _) fun ⟨_, l⟩ => ?_
    refine h.bind_isReading (l.expect_fails _) fun ⟨t, l⟩ => ?_
    exact locationPath_agrees h hinner hctx t
  · exact SameResult.ok hctx _

theorem expression_agrees (hctx : ctx.Corresponds M R ctx') (token : Token) :
    SameResult E M R (expression f d inner token ctx l) (expression g d' inner' token ctx' l) := by
  unfold expression
  split
  · exact .error h.unsupported
  · exact .error h.unsupported
  · exact absolutePath_agrees h hinner
  · refine (hinner.2 _ _ _ l hctx).bind fun ctx ctx' l hctx => ?_
    exact h.bind_isReading (l.expectFence_fails _) fun l => pathFrom_agrees h hinner hctx
  · exact pathFrom_agrees h hinner (.cons (.literal _) .nil)
  · exact pathFrom_agrees h hinner (.cons (.number _) .nil)
  · split
    · exact locationPath_agrees h hinner hctx _
    · exact (functionCall_agrees h hinner _ hctx).bind fun ctx ctx' l hctx =>
        pathFrom_agrees h hinner hctx
  · exact locationPath_agrees h hinner hctx _

end Steps

/-- **Expressions** agree, however deep they are inside each other. -/
theorem evaluateNext_agrees (h : CorrespondenceIn E f g d d' M R) (fuel : Nat) (e : Expected)
    (hctx : ctx.Corresponds M R ctx') :
    SameResult E M R (evaluateNext f d fuel e ctx l) (evaluateNext g d' fuel e ctx' l) := by
  induction fuel generalizing e ctx ctx' l with
  | zero => exact .error h.malformed
  | succ fuel ih =>
    simp only [evaluateNext]
    refine h.bind_isReading (l.expect_fails _) fun ⟨t, l⟩ => ?_
    have hinner : Evaluator.Corresponds E M R ⟨fuel, evaluateNext f d fuel⟩
        ⟨fuel, evaluateNext g d' fuel⟩ := ⟨rfl, fun e ctx ctx' l hctx => ih e hctx⟩
    exact expression_agrees h hinner hctx t

theorem fromRoot_agrees (h : CorrespondenceIn E f g d d' M R) (bound : Nat) (token : Token) :
    SameResult E M R (fromRoot f d bound token l) (fromRoot g d' bound token l) := by
  have hinner : Evaluator.Corresponds E M R (evaluator f d bound) (evaluator g d' bound) :=
    ⟨rfl, fun e _ _ _ hctx => evaluateNext_agrees h bound e hctx⟩
  exact expression_agrees h hinner (.cons (.node h.root) .nil) token

end Expression

namespace Address

variable (h : CorrespondenceIn E f g d d' M R) {ctx ctx' : Context} {l : Lexer}

include h

/-! ## Child sequences -/

theorem childElement_agrees (index : Nat) (hctx : ctx.Corresponds M R ctx') :
    AgreesIn E (Context.Corresponds M R) (childElement f index ctx) (childElement g index ctx') := by
  cases hctx with
  | nil => exact .ok .nil
  | cons he _ =>
    cases he with
    | node hn =>
      simp only [childElement]
      rcases Forest.nthChild_corresponds index (h.elements _ _ hn) with
        ⟨c, c', hf, hg, hM⟩ | ⟨k, hf, hg⟩
      · rw [hf, hg]
        exact .ok (.cons (.node hM) .nil)
      · rw [hf, hg]
        exact .ok .nil
    | _ => exact .error h.unsupported

theorem childSequence_agrees (fuel : Nat) (hctx : ctx.Corresponds M R ctx') :
    SameResult E M R (childSequence f fuel ctx l) (childSequence g fuel ctx' l) := by
  induction fuel generalizing ctx ctx' l with
  | zero => exact .error h.malformed
  | succ fuel ih =>
    simp only [childSequence]
    refine h.bind_isReading l.expectIndex_fails fun ⟨index, l⟩ => ?_
    refine (childElement_agrees h index hctx).bind fun ctx ctx' hctx => ?_
    refine h.bind_isReading l.peek_fails fun ⟨t, l⟩ => ?_
    split
    · exact h.bind_isReading (Lexer.next_fails _) fun ⟨_, l⟩ => ih hctx
    · exact SameResult.ok hctx _

theorem byId_corresponds (id : String) : Context.Corresponds M R (byId f d id) (byId g d' id) := by
  have hfound := h.byId id
  rw [byId, byId]
  generalize d.elementById? f id = found at hfound
  generalize d'.elementById? g id = found' at hfound
  cases hfound with
  | none => exact .nil
  | some hM => exact .cons (.node hM) .nil

theorem bareName_agrees (bound : Nat) (name : String) :
    SameResult E M R (bareName f d bound name l) (bareName g d' bound name l) := by
  simp only [bareName]
  refine h.bind_isReading l.peek_fails fun ⟨t, l⟩ => ?_
  split
  · exact h.bind_isReading (Lexer.next_fails _) fun ⟨_, l⟩ =>
      childSequence_agrees h bound (byId_corresponds h name)
  · exact SameResult.ok (byId_corresponds h name) _

theorem rootSequence_agrees (bound : Nat) :
    SameResult E M R (rootSequence f d bound l) (rootSequence g d' bound l) :=
  childSequence_agrees h bound (.cons (.node h.root) .nil)

/-! ## Scheme parts -/

theorem expressionPart_agrees (bound : Nat) :
    SameResult E M R (expressionPart f d bound l) (expressionPart g d' bound l) := by
  simp only [expressionPart]
  refine h.bind_isReading (l.expectFence_fails _) fun l => ?_
  refine h.bind_isReading (l.expect_fails _) fun ⟨t, l⟩ => ?_
  refine (Expression.fromRoot_agrees h bound t).bind fun ctx ctx' l hctx => ?_
  exact h.bind_isReading (l.expectFence_fails _) fun l => SameResult.ok hctx l

theorem elementPointer_agrees (bound : Nat) (token : Token) :
    SameResult E M R (elementPointer f d bound token l) (elementPointer g d' bound token l) := by
  unfold elementPointer
  split
  · exact bareName_agrees h bound _
  · exact rootSequence_agrees h bound
  · exact .error h.malformed

theorem elementPart_agrees (bound : Nat) :
    SameResult E M R (elementPart f d bound l) (elementPart g d' bound l) := by
  simp only [elementPart]
  refine h.bind_isReading (l.expectFence_fails _) fun l => ?_
  refine h.bind_isReading (l.expect_fails _) fun ⟨t, l⟩ => ?_
  refine (elementPointer_agrees h bound t).bind fun ctx ctx' l hctx => ?_
  exact h.bind_isReading (l.expectFence_fails _) fun l => SameResult.ok hctx l

omit h in
theorem locating_cons (e : Location) (rest : Context) :
    locating (e :: rest) = if e.isPlace then some (e :: rest) else none := rfl

omit h in
theorem locating_rel (hctx : ctx.Corresponds M R ctx') :
    Option.Rel (Context.Corresponds M R) (locating ctx) (locating ctx') := by
  cases hctx with
  | nil => exact .none
  | @cons e e' _ _ he hrest =>
    rw [locating_cons, locating_cons, he.isPlace_eq]
    by_cases hp : e.isPlace = true
    · rw [if_pos hp, if_pos hp]
      exact .some (.cons he hrest)
    · rw [if_neg hp, if_neg hp]
      exact .none

/-- What was found by the parts so far. -/
theorem schemePart_agrees (o : Options) (bound : Nat) (token : Token)
    {found found' : Option Context} (hfound : Option.Rel (Context.Corresponds M R) found found') :
    AgreesIn E (fun x y => Option.Rel (Context.Corresponds M R) x.1 y.1 ∧ x.2 = y.2)
      (schemePart f d o bound token found l) (schemePart g d' o bound token found' l) := by
  cases token with
  | functionName scheme =>
    have hsome : found'.isSome = found.isSome := by cases hfound <;> rfl
    simp only [schemePart, hsome]
    split
    · exact h.bind_isReading (skipPart_fails l) fun l => .ok ⟨hfound, rfl⟩
    · split
      · exact (expressionPart_agrees h bound).bind fun ctx ctx' l hctx =>
          .ok ⟨locating_rel hctx, rfl⟩
      · split
        · exact (elementPart_agrees h bound).bind fun ctx ctx' l hctx =>
            .ok ⟨locating_rel hctx, rfl⟩
        · exact h.bind_isReading (skipPart_fails l) fun l => .ok ⟨.none, rfl⟩
  | _ => exact .error h.malformed

theorem schemeParts_agrees (o : Options) (fuel : Nat) {found found' : Option Context}
    (hfound : Option.Rel (Context.Corresponds M R) found found') :
    AgreesIn E (fun x y => Option.Rel (Context.Corresponds M R) x.1 y.1 ∧ x.2 = y.2)
      (schemeParts f d o fuel found l) (schemeParts g d' o fuel found' l) := by
  induction fuel generalizing found found' l with
  | zero => exact .ok ⟨hfound, rfl⟩
  | succ fuel ih =>
    simp only [schemeParts]
    refine h.bind_isReading l.next_fails fun ⟨t, l⟩ => ?_
    split
    · exact .ok ⟨hfound, rfl⟩
    · refine (schemePart_agrees h o fuel _ hfound).bind fun x y hxy => ?_
      rw [← hxy.2]
      exact ih hxy.1

theorem schemes_agrees (o : Options) (bound : Nat) (token : Token) :
    SameResult E M R (schemes f d o bound token l) (schemes g d' o bound token l) := by
  simp only [schemes]
  refine (schemePart_agrees h o bound token .none).bind fun x y hxy => ?_
  rw [← hxy.2]
  refine (schemeParts_agrees h o bound hxy.1).bind fun ⟨found, l⟩ ⟨found', l'⟩ hfound => ?_
  obtain ⟨hfound, hl⟩ : Option.Rel (Context.Corresponds M R) found found' ∧ l = l' := hfound
  rw [← hl]
  refine SameResult.ok ?_ l
  cases hfound with
  | none => exact .nil
  | some hctx => exact hctx

/-! ## Addresses -/

theorem ofToken_agrees (o : Options) (bound : Nat) (token : Token) :
    SameResult E M R (ofToken f d o bound token l) (ofToken g d' o bound token l) := by
  unfold ofToken
  split
  · exact bareName_agrees h bound _
  · refine h.bind_isReading l.peek_fails fun ⟨t, l⟩ => ?_
    split
    · exact rootSequence_agrees h bound
    · exact Expression.fromRoot_agrees h bound _
  · split
    · exact Expression.fromRoot_agrees h bound _
    · exact schemes_agrees h o bound _
  · exact .error h.malformed

/-- **The evaluation of an address** agrees in forests that correspond, and fails only as their
answers and the address by itself do. -/
theorem evaluate_agreesIn (o : Options) (text : String) :
    AgreesIn E (Context.Corresponds M R) (evaluate f d o text) (evaluate g d' o text) := by
  unfold evaluate
  split
  · exact .error h.malformed
  · refine h.bind_isReading (Lexer.expect_fails _ _) fun ⟨t, l⟩ => ?_
    refine (ofToken_agrees h o l.rest.length t).bind fun ctx ctx' l hctx => ?_
    exact h.bind_isReading (expectEnd_fails l) fun _ => .ok hctx

omit h in
/-- **The evaluation of an address** agrees in forests that answer alike about the same nodes. -/
theorem evaluate_agrees {N : Node → Prop} (h : Alike f g d N R) (o : Options) (text : String) :
    Agrees (Context.Matches N R) (evaluate f d o text) (evaluate g d o text) :=
  (evaluate_agreesIn h.inAny.correspondence o text).agrees.mono fun _ _ hctx => hctx.matches

omit h in
/-- **The range of an address** in forests that correspond. -/
theorem resolve_agrees (h : Correspondence f g d d' M R) (o : Options) (text : String) :
    Agrees R (resolve f d o text) (resolve g d' o text) := by
  refine (evaluate_agreesIn h.inAny o text).agrees.bind fun ctx ctx' hctx => ?_
  cases hctx with
  | nil => exact .error _
  | cons hfirst _ =>
    dsimp only
    rw [hfirst.isPlace_eq, hfirst.kind_eq]
    split
    · exact (Location.toRange_agrees h.inAny hfirst).agrees
    · exact .error _

end Address

end TreePointer
