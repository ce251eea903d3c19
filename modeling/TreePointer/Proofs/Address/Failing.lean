import TreePointer.Proofs.Address.Finding

/-!
# Addresses that cannot be evaluated

A number from `2⁵³` on is not known exactly when it is read, so that an address with such a start or
length cannot be evaluated. Nothing that is made of it can be either, wherever it is read and
whatever follows it.

* `Fails`: a text that begins an expression which cannot be evaluated.
* `Finds.stretch_fails`: a start or a length that is too large.
* `Fails.point`, `Fails.append`, `Fails.rangeTo`: what is made of such a text.
* `Fails.resolve`: it is no address of anything.
-/

namespace TreePointer.Address

open Expression Lexer

variable {f : Forest} {d : Document} {text : List Char} {value : Context}

/-- Whatever begins with the text is an expression that cannot be evaluated. -/
def Fails (f : Forest) (d : Document) (text : List Char) : Prop :=
  ∃ t, StartsExpression t text ∧ ∀ (ctx : Context) (l : Lexer) (r : List Char), l.At (text ++ r) →
    ∃ l₁, l.scan = .ok (some (t, l₁.rest)) ∧ l.next = .ok (some t, l₁) ∧
      ∀ b, l₁.rest.length ≤ b → ∃ e, expression f d (within f d b) t ctx l₁ = .error e

namespace Fails

theorem append (h : Fails f d text) (more : List Char) : Fails f d (text ++ more) := by
  obtain ⟨t, hstart, hfails⟩ := h
  refine ⟨t, hstart.append more, fun ctx l r hat => hfails ctx l (more ++ r) ?_⟩
  rwa [← List.append_assoc]

/-- The expression inside another one. -/
theorem evaluateNext (h : Fails f d text) {l : Lexer} {r : List Char} (hat : l.At (text ++ r))
    {b : Nat} (hb : l.rest.length ≤ b) (e : Expected) (ctx : Context) :
    ∃ fault, Expression.evaluateNext f d b e ctx l = .error fault := by
  obtain ⟨t, -, hfails⟩ := h
  obtain ⟨l₁, hs, hnext, hvalue⟩ := hfails ctx l r hat
  have hshort := (scan_shorter hs).2
  cases b with
  | zero => omega
  | succ b =>
    obtain ⟨fault, hfault⟩ := hvalue b (by omega)
    refine ⟨fault, ?_⟩
    simp only [Expression.evaluateNext, expect_ok_iff.mpr hnext, bind, Except.bind]
    exact hfault

end Fails

/-! ## Calls -/

/-- A call whose arguments cannot be evaluated. -/
theorem fails_call {name : String} {args : List Char}
    (h : ∀ ctx (l : Lexer) (r : List Char) (b : Nat), l.At (args ++ r) → l.rest.length ≤ b →
      ∃ e, arguments f d (within f d b) name ctx l = .error e)
    (hfunction : isFunctionName name = true) (hname : name ∈ expressionFunctions) :
    Fails f d (name.toList ++ '(' :: args) := by
  have hrange : name ≠ "range-to" := by
    rintro rfl
    revert hname
    decide
  refine ⟨.functionName name, startsExpression_function hname, fun ctx l r hat => ?_⟩
  rw [List.append_assoc] at hat
  have hs := scan_function hfunction hat.rest_eq
  refine ⟨⟨'(' :: args ++ r, none, _⟩, hs, hat.next hs, fun b hb => ?_⟩
  have hat₁ := at_of_rest ('(' :: args ++ r) (some (.functionName name))
  have hopen : Lexer.expectFence ⟨'(' :: args ++ r, none, some (.functionName name)⟩ .leftParen
      = .ok ⟨args ++ r, none, some (.fence .leftParen)⟩ :=
    hat₁.expectToken (scan_punctuation (by decide) hat₁.rest_eq) _
  obtain ⟨e, he⟩ := h ctx _ r b (at_of_rest (args ++ r) (some (.fence .leftParen)))
    (Nat.le_of_succ_le hb)
  refine ⟨e, ?_⟩
  rw [expression, if_neg hrange]
  simp only [functionCall, hopen, he, bind, Except.bind]

/-- A start or a length that cannot be read, behind what can. -/
theorem Finds.stretch_fails (h : Finds f d text value) {start length : Nat}
    (hlarge : Binary64.exactBound ≤ start ∨ Binary64.exactBound ≤ length) :
    Fails f d ("string-range".toList ++ stringRangeChars text start length) := by
  obtain ⟨t, hreads⟩ := h.reads
  refine fails_call (fun ctx l r b hat hb => ?_) rfl (by decide)
  have hrest : text ++ (lengthChars start length ++ [')']) ++ r
      = text ++ (lengthChars start length ++ ')' :: r) := by
    simp only [List.append_assoc, List.cons_append, List.nil_append]
  rw [hrest] at hat
  obtain ⟨l₁, hlocation, hl₁⟩ := (hreads ctx).evaluateNext hat (stops_comma _) hb .location
  obtain ⟨e, he⟩ := stringRangeArguments_large hlarge hl₁
  have hname : ¬ "string-range" = "id" := by decide
  refine ⟨e, ?_⟩
  simp only [arguments, if_neg hname, if_true, stringRangeCall, hlocation, he, bind, Except.bind]

/-- One end of what cannot be evaluated. -/
theorem Fails.point (h : Fails f d text) (toStart : Bool) :
    Fails f d ((pointName toStart).toList ++ '(' :: (text ++ [')'])) := by
  refine fails_call (fun ctx l r b hat hb => ?_) (by cases toStart <;> rfl)
    (by cases toStart <;> decide)
  rw [List.append_assoc] at hat
  obtain ⟨e, he⟩ := h.evaluateNext hat hb .location ctx
  have harguments : arguments f d (within f d b) (pointName toStart) ctx l
      = pointCall f (within f d b) toStart ctx l := by
    cases toStart <;> rfl
  refine ⟨e, ?_⟩
  rw [harguments]
  simp only [pointCall, he, bind, Except.bind]

/-- A target that cannot be evaluated. -/
theorem Fails.rangeTo {target : List Char} {entry : Location} {first : Range}
    (h : Fails f d target) (hfirst : Finds f d text [entry]) (hentry : entry.toRange f = .ok first) :
    Fails f d (text ++ rangeToChars target) := by
  obtain ⟨t, hstart, hopens⟩ := hfirst
  refine ⟨t, hstart.append _, fun ctx l r hat => ?_⟩
  obtain ⟨l₁, hscan, hnext, hvalue⟩ := (hopens ctx).rangeTo_eq hat
  refine ⟨l₁, hscan, hnext, fun b hb => ?_⟩
  obtain ⟨l₂, fuel, hl₂, hlen, -, heq⟩ := hvalue b hb
  have hrest : '(' :: (target ++ [')']) ++ r = '(' :: (target ++ (')' :: r)) := by
    simp only [List.cons_append, List.append_assoc, List.nil_append]
  rw [hrest] at hl₂
  have hopen : l₂.expectFence .leftParen
      = .ok ⟨target ++ (')' :: r), none, some (.fence .leftParen)⟩ :=
    hl₂.expectToken (scan_punctuation (by decide) hl₂.rest_eq) _
  have hle : (target ++ (')' :: r)).length ≤ b := by
    rw [hl₂.rest_eq] at hlen
    exact Nat.le_of_succ_le hlen
  obtain ⟨e, he⟩ := h.evaluateNext (at_of_rest (target ++ (')' :: r)) (some (.fence .leftParen)))
    hle .rangeTarget [entry]
  refine ⟨e, ?_⟩
  rw [heq]
  simp [Expression.rangeTo, hopen, rangesFrom, rangeFrom, hentry, he, bind, Except.bind]

/-! ## Whole addresses -/

/-- What cannot be evaluated cannot be in parentheses either. -/
theorem Fails.expressionPart (h : Fails f d text) {l : Lexer} {r : List Char}
    (hat : l.At ('(' :: (text ++ r))) {b : Nat} (hb : l.rest.length ≤ b) :
    ∃ e, Address.expressionPart f d b l = .error e := by
  obtain ⟨t, -, hfails⟩ := h
  have hopen : l.expectFence .leftParen = .ok ⟨text ++ r, none, some (.fence .leftParen)⟩ :=
    hat.expectToken (scan_punctuation (by decide) hat.rest_eq) _
  obtain ⟨l₁, hs, hnext, hvalue⟩ :=
    hfails [.node d.root] _ r (at_of_rest (text ++ r) (some (.fence .leftParen)))
  rw [hat.rest_eq] at hb
  obtain ⟨e, he⟩ := hvalue b
    (Nat.le_trans (Nat.le_of_lt (scan_shorter hs).2) (Nat.le_of_succ_le hb))
  have hroot : fromRoot f d b t l₁ = .error e := he
  refine ⟨e, ?_⟩
  simp only [Address.expressionPart, hopen, expect_ok_iff.mpr hnext, hroot, bind, Except.bind]

/-- **What cannot be evaluated** is an address of nothing, whether the scheme is written or not. -/
theorem Fails.resolve {body : String} (h : Fails f d body.toList) (o o' : Options) :
    ∃ e, Address.resolve f d o' (wrapped o body) = .error e := by
  suffices hevaluate : ∃ e, Address.evaluate f d o' (wrapped o body) = .error e by
    obtain ⟨e, he⟩ := hevaluate
    exact ⟨e, by simp only [Address.resolve, he, bind, Except.bind]⟩
  unfold wrapped
  split
  · obtain ⟨e, he⟩ := h.expressionPart
      (at_of_rest ('(' :: (body.toList ++ [')'])) (some (.functionName "xpointer")))
      (Nat.le_refl _)
    refine ⟨e, ?_⟩
    rw [evaluate_xpointer]
    simp only [schemes, schemePart, Option.isSome_none, Bool.false_eq_true, if_false, if_true, he,
      bind, Except.bind]
  · obtain ⟨t, hstart, hfails⟩ := h
    have hat : (ofString body).At (body.toList ++ []) := by
      rw [List.append_nil]
      exact at_ofString body
    obtain ⟨l₁, hs, hnext, hvalue⟩ := hfails [.node d.root] _ [] hat
    obtain ⟨e, he⟩ := hvalue l₁.rest.length (Nat.le_refl _)
    have hroot : fromRoot f d l₁.rest.length t l₁ = .error e := he
    refine ⟨e, ?_⟩
    rw [hstart.evaluate hs hnext]
    simp only [hroot, bind, Except.bind]

end TreePointer.Address
