import TreePointer.Proofs.Address.Extent
import TreePointer.Proofs.Token.Continued

/-!
# Expressions in a text that goes on

What an expression gives does not depend on the text behind it, as long as its last token does not:
no production asks for the end of the text. This is shown of one production after the other, with
the evaluator of the expressions inside it given, and then by induction on the bound that ties the
knot. The bounds differ, since more text is left; it matters only that there is enough of both. The
targets of `range-to` are read several times, each time to the same place.

* `Evaluator.Continues`: evaluators that agree where the one text is the other one and more.
* `predicates_eq`, `steps_eq`: what a loop does next, whatever is left of its bound.
* `expression_tracks`, `evaluateNext_tracks`: expressions, and expressions inside each other.
* `bareName_tracks`: bare names and child sequences.
-/

namespace TreePointer

open Lexer
open Lexer.Continued (Seen)

namespace Expression

variable {f : Forest} {d : Document} {inner inner' : Evaluator} {ctx : Context} {l l' : Lexer}
  {more : List Char} {n : Nat}

/-- The second evaluator gives what the first one gives where more text follows. Its bound leaves
room for that text. -/
structure Evaluator.Continues (more : List Char) (inner inner' : Evaluator) : Prop where
  bound_le : inner.bound + more.length ≤ inner'.bound
  endsAlike : inner.EndsAlike
  run : ∀ {n l l'}, Continued more n l l' → n ≤ inner.bound → ∀ e ctx,
    Tracks more n l (inner.run e ctx l) (inner'.run e ctx l')

/-- What a bound leaves room for behind the first text, it leaves room for in both. -/
theorem length_le_of_continued {b b' : Nat} (hl : Continued more n l l') (hb : n ≤ b)
    (hb' : b + more.length ≤ b') : l.rest.length ≤ b ∧ l'.rest.length ≤ b' := by
  have hle := hl.length_le
  rw [hl.rest_eq, List.length_append]
  omega

/-! ## Loops -/

/-- Without text that is left, nothing is seen. -/
theorem peek_of_rest_nil (hl : l.Faithful) (hrest : l.rest = []) : l.peek = .ok (none, l) := by
  have hs := scan_nil hrest
  have hheld : l.held = none := by
    cases hh : l.held with
    | none => rfl
    | some found => cases (hl found hh).symm.trans hs
  rw [peek_of_scan hl hs]
  exact congrArg _ (Prod.ext rfl (by rw [← hheld]))

/-- Whatever is left of the bound, as long as it covers the text, the next predicate is read if
there is one. -/
theorem predicates_eq {accept : Node → Bool} {ns : List Node} {fuel : Nat} (hl : l.Faithful)
    (hfuel : l.rest.length ≤ fuel) (candidates : Option Context) :
    predicates f inner accept ns ctx fuel candidates l = (do
      let p ← l.peek
      if p.1 = some (.fence .leftBracket) then do
        let (_, l) ← p.2.next
        let (value, l) ← inner.run .predicate ctx l
        let l ← l.expectFence .rightBracket
        predicates f inner accept ns ctx (fuel - 1)
          ((Predicate.ofContext value).apply f accept ns candidates) l
      else .ok (candidates, p.2)) := by
  cases fuel with
  | zero =>
    rw [peek_of_rest_nil hl (List.length_eq_zero_iff.mp (Nat.le_zero.mp hfuel))]
    rfl
  | succ fuel =>
    rw [predicates]
    refine bind_congr fun found => ?_
    obtain ⟨seen, l₁⟩ := found
    dsimp only
    split
    · next heq =>
      cases heq
      rw [if_pos rfl]
      rfl
    · next hne heq =>
      cases heq
      rw [if_neg hne]

theorem steps_eq {fuel : Nat} (hl : l.Faithful) (hfuel : l.rest.length ≤ fuel) (ctx : Context) :
    steps f d inner fuel ctx l = (do
      let p ← l.peek
      if p.1 = some (.operator .slashSlash) then .error (.unsupported .descendantPath)
      else if p.1 = some (.operator .slash) then do
        let (_, l) ← p.2.next
        let (t, l) ← l.expect .locationStep
        let (ctx, l) ← step f d inner t ctx l
        steps f d inner (fuel - 1) ctx l
      else .ok (ctx, p.2)) := by
  cases fuel with
  | zero =>
    rw [peek_of_rest_nil hl (List.length_eq_zero_iff.mp (Nat.le_zero.mp hfuel))]
    rfl
  | succ fuel =>
    rw [steps]
    refine bind_congr fun found => ?_
    obtain ⟨seen, l₁⟩ := found
    dsimp only
    split
    · next heq =>
      cases heq
      rw [if_pos rfl]
    · next heq =>
      cases heq
      rw [if_neg (by decide), if_pos rfl]
      rfl
    · next hdouble hslash heq =>
      cases heq
      rw [if_neg hdouble, if_neg hslash]

theorem skipArguments_eq {fuel : Nat} (hl : l.Faithful) (hfuel : l.rest.length ≤ fuel)
    (depth : Nat) :
    skipArguments (depth + 1) fuel l = (do
      let (t, l) ← l.expect (.fence .rightParen)
      skipArguments (depthAfter depth t) (fuel - 1) l) := by
  cases fuel with
  | zero =>
    have hrest := List.length_eq_zero_iff.mp (Nat.le_zero.mp hfuel)
    rw [skipArguments, expect_ended (At.next_none ⟨rfl, hl⟩ (scan_nil hrest))]
    rfl
  | succ fuel =>
    cases hexpect : l.expect (.fence .rightParen) with
    | error e => simp only [skipArguments, hexpect, bind, Except.bind]
    | ok p => exact skipArguments_of_expect hexpect depth fuel

/-! ## Location steps -/

section Steps

variable (h : inner.Continues more inner') (hl : Continued more n l l') (hn : n ≤ inner.bound)

include h hl hn

theorem predicates_tracks {accept : Node → Bool} {ns : List Node} {fuel fuel' : Nat}
    (hfuel : n ≤ fuel) (hfuel' : fuel + more.length ≤ fuel') (candidates : Option Context) :
    Tracks more n l (predicates f inner accept ns ctx fuel candidates l)
      (predicates f inner' accept ns ctx fuel' candidates l') := by
  induction n using Nat.strongRecOn generalizing fuel fuel' candidates l l' with
  | _ n ih =>
    obtain ⟨hle, hle'⟩ := length_le_of_continued hl hfuel hfuel'
    rw [predicates_eq hl.faithful hle, predicates_eq hl.faithful' hle']
    refine hl.peek_bind fun p p' hseen => ?_
    refine hseen.ite (by decide) (fun hpos hnext => ?_) fun h₁ => .pure h₁ _
    refine hnext.bind fun _ l₂ l₂' h₂ => ?_
    refine (h.run h₂ (by omega) _ ctx).bind fun value l₃ l₃' h₃ => ?_
    refine Tracks.bind_only (h₃.expectFence _) fun l₄ l₄' h₄ => ?_
    exact (ih (n - 1 - 1) (by omega) h₄ (by omega) (by omega) (by omega) _).mono (by omega)

theorem nameStep_tracks (name : String) :
    Tracks more n l (nameStep f d inner name ctx l) (nameStep f d inner' name ctx l') := by
  refine .bind_same _ fun ns _ => ?_
  refine (predicates_tracks h hl hn hn h.bound_le none).bind fun left l₁ l₁' h₁ => ?_
  exact .pure h₁ _

theorem axisStep_tracks (axis : String) :
    Tracks more n l (axisStep f d inner axis ctx l) (axisStep f d inner' axis ctx l') := by
  unfold axisStep
  split
  · exact .same_error _
  refine hl.next_bind (fun t l₁ l₁' h₁ => ?_) .noColons (fun _ => rfl) fun _ => rfl
  split
  · next heq =>
    cases heq
    refine (h₁.expect _).bind fun t l₂ l₂' h₂ => ?_
    cases t with
    | nameTest name => exact (nameStep_tracks h h₂ (by omega) name).mono (by omega)
    | nodeType name => exact .same_error _
    | _ => exact .fault h₂ _
  · next hne heq =>
    cases heq
    split
    · next heq =>
      cases heq
      exact absurd rfl hne
    · next heq =>
      cases heq
      exact .fault h₁ _

/-! ## Ranges from one place to another -/

omit h hn in
theorem skipArguments_tracks (depth : Nat) {fuel fuel' : Nat} (hfuel : n ≤ fuel)
    (hfuel' : fuel + more.length ≤ fuel') :
    Tracks more n l (only (skipArguments depth fuel l)) (only (skipArguments depth fuel' l')) := by
  induction n using Nat.strongRecOn generalizing fuel fuel' depth l l' with
  | _ n ih =>
    obtain ⟨hle, hle'⟩ := length_le_of_continued hl hfuel hfuel'
    cases depth with
    | zero =>
      rw [skipArguments_zero, skipArguments_zero]
      exact .pure hl ()
    | succ depth =>
      rw [skipArguments_eq hl.faithful hle, skipArguments_eq hl.faithful' hle', only_bind,
        only_bind]
      refine (hl.expect _).bind_of_ok fun t l₁ l₁' hexpect h₁ => ?_
      have hpos := (expect_shorter hl.faithful hexpect).2
      have hlen := hl.length_le
      exact (ih (n - 1) (by omega) h₁ _ (by omega) (by omega)).mono (by omega)

theorem skipCall_tracks :
    Tracks more n l (only (skipCall inner.bound l)) (only (skipCall inner'.bound l')) := by
  rw [skipCall, skipCall, only_bind, only_bind]
  refine Tracks.bind_only (hl.expectFence _) fun l₁ l₁' h₁ => ?_
  exact (skipArguments_tracks h₁ 1 (by omega) h.bound_le).mono (by omega)

theorem rangeFrom_tracks (entry : Location) :
    Tracks more n l (rangeFrom f inner entry l) (rangeFrom f inner' entry l') := by
  rw [rangeFrom_eq, rangeFrom_eq]
  refine .bind_same _ fun r _ => ?_
  refine (h.run hl hn _ _).bind fun target l₁ l₁' h₁ => ?_
  exact .bind_same _ fun range _ => .pure h₁ _

/-- The target is read for every entry, and what follows is the text behind all of these readings,
since they end at the same place. -/
theorem rangesFrom_tracks (ctx : Context) :
    Tracks more n l (rangesFrom f inner l ctx) (rangesFrom f inner' l' ctx) := by
  have hone : ∀ entry, Tracks more n l (rangesFrom f inner l [entry])
      (rangesFrom f inner' l' [entry]) := fun entry => by
    rw [rangesFrom_singleton, rangesFrom_singleton]
    exact (rangeFrom_tracks h hl hn entry).bind fun r l₁ l₁' h₁ => .pure h₁ _
  induction ctx with
  | nil => exact .pure hl _
  | cons entry ctx ih =>
    by_cases hctx : ctx = []
    · rw [hctx]
      exact hone entry
    rw [← List.singleton_append, rangesFrom_append f inner l [entry] hctx,
      rangesFrom_append f inner' l' [entry] hctx]
    refine (hone entry).both ih (fun hfirst hrest => ?_) _
    exact rangesFrom_endsAlike h.endsAlike hl.faithful (Nat.le_trans hl.length_le hn)
      (List.cons_ne_nil entry []) hctx hfirst hrest

theorem rangeTo_tracks :
    Tracks more n l (rangeTo f inner ctx l) (rangeTo f inner' ctx l') := by
  cases ctx with
  | nil => exact Tracks.bind_only (skipCall_tracks h hl hn) fun l₁ l₁' h₁ => .pure h₁ _
  | cons entry rest =>
    refine Tracks.bind_only (hl.expectFence _) fun l₁ l₁' h₁ => ?_
    refine (rangesFrom_tracks h h₁ (by omega) _).bind fun ranges l₂ l₂' h₂ => ?_
    refine Tracks.bind_only (h₂.expectFence _) fun l₃ l₃' h₃ => ?_
    exact (Tracks.pure h₃ _).mono (by omega)

/-! ## Location paths -/

theorem step_tracks (token : Token) :
    Tracks more n l (step f d inner token ctx l) (step f d inner' token ctx l') := by
  cases token with
  | dot => exact .pure hl _
  | dotDot => exact .bind_same _ fun ns _ => .pure hl _
  | functionName name =>
    simp only [step]
    split
    · exact rangeTo_tracks h hl hn
    · exact .same_error _
  | axisName axis => exact axisStep_tracks h hl hn axis
  | nameTest name => exact nameStep_tracks h hl hn name
  | nodeType name => exact .same_error _
  | «at» => exact .same_error _
  | _ => exact .fault hl _

theorem steps_tracks {fuel fuel' : Nat} (hfuel : n ≤ fuel) (hfuel' : fuel + more.length ≤ fuel')
    (ctx : Context) :
    Tracks more n l (steps f d inner fuel ctx l) (steps f d inner' fuel' ctx l') := by
  induction n using Nat.strongRecOn generalizing fuel fuel' ctx l l' with
  | _ n ih =>
    obtain ⟨hle, hle'⟩ := length_le_of_continued hl hfuel hfuel'
    rw [steps_eq hl.faithful hle, steps_eq hl.faithful' hle']
    refine hl.peek_bind fun p p' hseen => ?_
    refine hseen.ite (by decide) (fun _ _ => .same_error _) fun _ => ?_
    refine hseen.ite (by decide) (fun hpos hnext => ?_) fun h₁ => .pure h₁ _
    refine hnext.bind fun _ l₂ l₂' h₂ => ?_
    refine (h₂.expect _).bind fun t l₃ l₃' h₃ => ?_
    refine (step_tracks h h₃ (by omega) t).bind fun ctx l₄ l₄' h₄ => ?_
    exact (ih (n - 1 - 1) (by omega) h₄ (by omega) (by omega) (by omega) ctx).mono (by omega)

theorem locationPath_tracks (token : Token) :
    Tracks more n l (locationPath f d inner token ctx l)
      (locationPath f d inner' token ctx l') := by
  refine (step_tracks h hl hn token).bind fun ctx l₁ l₁' h₁ => ?_
  exact steps_tracks h h₁ hn hn h.bound_le ctx

theorem absolutePath_tracks :
    Tracks more n l (absolutePath f d inner l) (absolutePath f d inner' l') := by
  refine hl.peek_bind fun p p' hseen => ?_
  cases hseen with
  | nothing h₁ => exact .pure h₁ _
  | paren h₁ _ _ => exact .pure h₁ _
  | @token t l₁ l₁' h₁ _ _ =>
    dsimp only [Option.any_some]
    split
    · refine (h₁.expect _).bind fun t l₂ l₂' h₂ => ?_
      exact (locationPath_tracks h h₂ (by omega) t).mono (by omega)
    · exact .pure h₁ _

/-- The rest of an expression after a value. -/
theorem pathFrom_tracks (ctx : Context) :
    Tracks more n l (pathFrom f d inner ctx l) (pathFrom f d inner' ctx l') := by
  have hbound := h.bound_le
  rw [pathFrom_eq, pathFrom_eq]
  exact steps_tracks h hl hn (by omega) (by omega) ctx

/-! ## Functions -/

omit h hn in
theorem idCall_tracks : Tracks more n l (idCall f d l) (idCall f d l') := by
  refine (hl.expect _).bind fun t l₁ l₁' h₁ => ?_
  cases t with
  | literal s => exact (Tracks.pure h₁ _).mono (by omega)
  | _ => exact .fault h₁ _

omit h hn in
theorem expectNoSearch_tracks :
    Tracks more n l (only (expectNoSearch l)) (only (expectNoSearch l')) := by
  rw [expectNoSearch, expectNoSearch, only_bind, only_bind]
  refine (hl.expect _).bind fun t l₁ l₁' h₁ => ?_
  cases t with
  | literal s =>
    dsimp only
    split
    · exact (Tracks.pure h₁ ()).mono (by omega)
    · exact .same_error _
  | _ => exact .fault h₁ _

omit h hn in
/-- Where an argument has to follow, neither the end of the text nor a closing parenthesis will
do. -/
theorem refuseEnd_tracks {fault : UnsupportedFault} {α : Type}
    {k k' : Lexer → Except Fault (α × Lexer)}
    (hk : ∀ l l', Continued more n l l' → Tracks more n l (k l) (k' l')) :
    Tracks more n l (do let l ← refuseEnd fault l; let l ← l.expectComma; k l)
      (do let l ← refuseEnd fault l'; let l ← l.expectComma; k' l) := by
  simp only [refuseEnd, bind_assoc]
  refine hl.peek_bind fun p p' hseen => ?_
  have hcomma : ∀ {l l'}, Continued more n l l' →
      Tracks more n l (l.expectComma >>= k) (l'.expectComma >>= k') := fun h₁ =>
    Tracks.bind_only h₁.expectComma fun l₂ l₂' h₂ => hk l₂ l₂' (h₂.mono (by omega))
  cases hseen with
  | nothing h₁ => exact hcomma h₁
  | @paren l₁ l₁' h₁ hmore hend =>
    have hended : l₁.expectComma = .error (l₁.ended .comma) := by
      rw [Lexer.expectComma, Lexer.expectToken, expect_ended hend]
      rfl
    change Tracks more n l₁ (l₁.expectComma >>= k) _
    rw [hended]
    exact .of_error fun hnil => absurd hnil hmore
  | @token t l₁ l₁' h₁ _ _ =>
    split
    · next heq =>
      cases heq
      exact .same_error _
    · next hne heq =>
      cases heq
      split
      · next heq =>
        cases heq
        exact absurd rfl hne
      · next heq =>
        cases heq
        exact hcomma h₁

omit h hn in
theorem stringRangeArguments_tracks :
    Tracks more n l (stringRangeArguments l) (stringRangeArguments l') := by
  refine Tracks.bind_only hl.expectComma fun l₁ l₁' h₁ => ?_
  refine Tracks.bind_only (expectNoSearch_tracks h₁) fun l₂ l₂' h₂ => ?_
  refine (refuseEnd_tracks h₂ fun l₃ l₃' h₃ => ?_).mono (by omega)
  refine (h₃.expectInteger _).bind fun start l₄ l₄' h₄ => ?_
  refine (refuseEnd_tracks h₄ fun l₅ l₅' h₅ => ?_).mono (by omega)
  refine (h₅.expectInteger _).bind fun length l₆ l₆' h₆ => ?_
  exact (Tracks.pure h₆ _).mono (by omega)

theorem stringRangeCall_tracks :
    Tracks more n l (stringRangeCall f inner ctx l) (stringRangeCall f inner' ctx l') := by
  refine (h.run hl hn _ ctx).bind fun locations l₁ l₁' h₁ => ?_
  refine (stringRangeArguments_tracks h₁).bind fun (start, length) l₂ l₂' h₂ => ?_
  exact .bind_same _ fun ranges _ => .pure h₂ _

theorem pointCall_tracks (toStart : Bool) :
    Tracks more n l (pointCall f inner toStart ctx l) (pointCall f inner' toStart ctx l') := by
  refine (h.run hl hn _ ctx).bind fun locations l₁ l₁' h₁ => ?_
  exact .bind_same _ fun points _ => .pure h₁ _

theorem arguments_tracks (name : String) :
    Tracks more n l (arguments f d inner name ctx l) (arguments f d inner' name ctx l') := by
  unfold arguments
  split
  · exact idCall_tracks hl
  split
  · exact stringRangeCall_tracks h hl hn
  split
  · exact pointCall_tracks h hl hn true
  split
  · exact pointCall_tracks h hl hn false
  · exact .same_error _

theorem functionCall_tracks (name : String) :
    Tracks more n l (functionCall f d inner name ctx l)
      (functionCall f d inner' name ctx l') := by
  refine Tracks.bind_only (hl.expectFence _) fun l₁ l₁' h₁ => ?_
  refine (arguments_tracks h h₁ (by omega) name).bind fun ctx l₂ l₂' h₂ => ?_
  refine Tracks.bind_only (h₂.expectFence _) fun l₃ l₃' h₃ => ?_
  exact (Tracks.pure h₃ _).mono (by omega)

/-! ## Expressions -/

/-- **An expression** gives the same in a text that goes on, if the expressions inside it do. -/
theorem expression_tracks (token : Token) (ctx : Context) :
    Tracks more n l (expression f d inner token ctx l) (expression f d inner' token ctx l') := by
  unfold expression
  split
  · exact .same_error _
  · exact .same_error _
  · exact absolutePath_tracks h hl hn
  · refine (h.run hl hn _ ctx).bind fun ctx l₁ l₁' h₁ => ?_
    refine Tracks.bind_only (h₁.expectFence _) fun l₂ l₂' h₂ => ?_
    exact (pathFrom_tracks h h₂ (by omega) ctx).mono (by omega)
  · exact pathFrom_tracks h hl hn _
  · exact pathFrom_tracks h hl hn _
  · split
    · exact locationPath_tracks h hl hn _
    · exact (functionCall_tracks h hl hn _).bind fun ctx l₁ l₁' h₁ => pathFrom_tracks h h₁ hn ctx
  · exact locationPath_tracks h hl hn _

end Steps

/-- Without text that is left, there is no expression. -/
theorem evaluateNext_of_rest_nil (hl : l.Faithful) (hrest : l.rest = []) (b : Nat) (e : Expected) :
    evaluateNext f d b e ctx l = .error (l.ended e) := by
  cases b with
  | zero => rfl
  | succ b =>
    rw [evaluateNext, expect_ended (At.next_none ⟨rfl, hl⟩ (scan_nil hrest))]
    rfl

/-- Expressions inside each other, to any depth that the text allows. -/
theorem evaluateNext_tracks {b b' : Nat} (hb : b + more.length ≤ b') (hl : Continued more n l l')
    (hn : n ≤ b) (e : Expected) (ctx : Context) :
    Tracks more n l (evaluateNext f d b e ctx l) (evaluateNext f d b' e ctx l') := by
  induction b generalizing b' n l l' e ctx with
  | zero =>
    refine .of_error fun hmore => ?_
    subst hmore
    have hrest := List.length_eq_zero_iff.mp (Nat.le_zero.mp (Nat.le_trans hl.length_le hn))
    have hrest' : l'.rest = [] := by rw [hl.rest_eq, hrest, List.append_nil]
    rw [evaluateNext_of_rest_nil hl.faithful' hrest']
    exact congrArg _ (hl.fault_eq _)
  | succ b ih =>
    obtain ⟨b', rfl⟩ : ∃ c, b' = c + 1 := Nat.exists_eq_add_one.mpr (by omega)
    have hinner : Evaluator.Continues more ⟨b, evaluateNext f d b⟩ ⟨b', evaluateNext f d b'⟩ :=
      ⟨by simp only; omega, evaluator_endsAlike f d b,
        fun hl hn e ctx => ih (by omega) hl hn e ctx⟩
    refine (hl.expect e).bind fun t l₁ l₁' h₁ => ?_
    exact (expression_tracks hinner h₁ (by simp only; omega) t ctx).mono (by omega)

/-- An expression from the root, whose first token has been taken. -/
theorem fromRoot_tracks {b b' : Nat} (hb : b + more.length ≤ b') (hl : Continued more n l l')
    (hn : n ≤ b) (token : Token) :
    Tracks more n l (fromRoot f d b token l) (fromRoot f d b' token l') :=
  have hinner : Evaluator.Continues more (evaluator f d b) (evaluator f d b') :=
    ⟨hb, evaluator_endsAlike f d b, fun hl hn e ctx => evaluateNext_tracks hb hl hn e ctx⟩
  expression_tracks hinner hl hn token _

end Expression

namespace Address

open Expression (length_le_of_continued)

variable {f : Forest} {d : Document} {l l' : Lexer} {more : List Char} {n : Nat}

/-! ## Child sequences and bare names -/

theorem childSequence_eq {fuel : Nat} (hl : l.Faithful) (hfuel : l.rest.length ≤ fuel)
    (ctx : Context) :
    childSequence f fuel ctx l = (do
      let (index, l) ← l.expectIndex
      let ctx ← childElement f index ctx
      let p ← l.peek
      if p.1 = some (.operator .slash) then do
        let (_, l) ← p.2.next
        childSequence f (fuel - 1) ctx l
      else .ok (ctx, p.2)) := by
  cases fuel with
  | zero =>
    have hrest := List.length_eq_zero_iff.mp (Nat.le_zero.mp hfuel)
    rw [childSequence, expectIndex, expect_ended (At.next_none ⟨rfl, hl⟩ (scan_nil hrest))]
    rfl
  | succ fuel =>
    rw [childSequence]
    refine bind_congr fun (index, l₁) => bind_congr fun ctx => bind_congr fun (seen, l₂) => ?_
    dsimp only
    split
    · next heq =>
      cases heq
      rw [if_pos rfl]
      rfl
    · next hne heq =>
      cases heq
      rw [if_neg hne]

theorem childSequence_tracks (hl : Continued more n l l') {fuel fuel' : Nat} (hfuel : n ≤ fuel)
    (hfuel' : fuel + more.length ≤ fuel') (ctx : Context) :
    Tracks more n l (childSequence f fuel ctx l) (childSequence f fuel' ctx l') := by
  induction n using Nat.strongRecOn generalizing fuel fuel' ctx l l' with
  | _ n ih =>
    obtain ⟨hle, hle'⟩ := length_le_of_continued hl hfuel hfuel'
    rw [childSequence_eq hl.faithful hle, childSequence_eq hl.faithful' hle']
    refine hl.expectIndex.bind fun index l₁ l₁' h₁ => .bind_same _ fun ctx _ => ?_
    refine h₁.peek_bind fun p p' hseen => ?_
    refine hseen.ite (by decide) (fun hpos hnext => ?_) fun h₂ => (Tracks.pure h₂ _).mono (by omega)
    refine hnext.bind fun _ l₃ l₃' h₃ => ?_
    exact (ih (n - 1 - 1) (by omega) h₃ (by omega) (by omega) ctx).mono (by omega)

theorem bareName_eq (b : Nat) (name : String) (l : Lexer) :
    bareName f d b name l = (do
      let p ← l.peek
      if p.1 = some (.operator .slash) then do
        let (_, l) ← p.2.next
        childSequence f b (byId f d name) l
      else .ok (byId f d name, p.2)) := by
  rw [bareName]
  refine bind_congr fun (seen, l₁) => ?_
  dsimp only
  split
  · next heq =>
    cases heq
    rw [if_pos rfl]
  · next hne heq =>
    cases heq
    rw [if_neg hne]

theorem bareName_tracks (hl : Continued more n l l') {b b' : Nat} (hn : n ≤ b)
    (hb : b + more.length ≤ b') (name : String) :
    Tracks more n l (bareName f d b name l) (bareName f d b' name l') := by
  rw [bareName_eq, bareName_eq]
  refine hl.peek_bind fun p p' hseen => ?_
  refine hseen.ite (by decide) (fun hpos hnext => ?_) fun h₁ => .pure h₁ _
  refine hnext.bind fun _ l₂ l₂' h₂ => ?_
  exact (childSequence_tracks h₂ (by omega) hb _).mono (by omega)

theorem elementPointer_tracks (hl : Continued more n l l') {b b' : Nat} (hn : n ≤ b)
    (hb : b + more.length ≤ b') (token : Token) :
    Tracks more n l (elementPointer f d b token l) (elementPointer f d b' token l') := by
  unfold elementPointer
  split
  · exact bareName_tracks hl hn hb _
  · exact childSequence_tracks hl hn hb _
  · exact .fault hl _

end Address

end TreePointer
