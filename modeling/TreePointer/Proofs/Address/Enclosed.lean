import TreePointer.Proofs.Address.Continued
import TreePointer.Proofs.Address.Soundness

/-!
# An expression inside a scheme part

An expression that is an address by itself can be put between `xpointer(` and `)`. It is then read
with another end: where its text was over, there is a closing parenthesis. No token goes on with
that, so the expression gives what it gave before.

* `startExpression`: the addresses that are expressions, by their first tokens.
* `evaluate_in_scheme`: the value of an address that is an expression does not change in a scheme
  part, except that a value that is no place counts for nothing there.
-/

namespace TreePointer

open Lexer

namespace Address

open Expression

variable {f : Forest} {d : Document} {o : Options} {body : String} {ctx : Context}

/-- Whether tokens are those of an address that is an expression: they start with a slash that no
number follows, or with one of the functions with which an address can start. -/
def startExpression : List Token → Bool
  | .operator .slash :: .number _ :: _ => false
  | .operator .slash :: _ => true
  | .functionName name :: _ => expressionFunctions.contains name
  | _ => false

/-- Such an address is evaluated from the root, possibly by a lexer that has looked ahead. -/
theorem ofToken_of_startExpression {more : List Char} {n b k : Nat} {t : Token} {l l' l₂ : Lexer}
    (hl : Continued more n l l')
    (hstart : startExpression (t :: (collect (k + 1) l).1) = true)
    (h : ofToken f d o b t l = .ok (ctx, l₂)) :
    ∃ l₁, Continued more n l₁ l' ∧ fromRoot f d b t l₁ = .ok (ctx, l₂) := by
  unfold startExpression at hstart
  split at hstart
  · cases hstart
  · next rest hnumber heq =>
    obtain ⟨rfl, hrest⟩ := List.cons.inj heq
    obtain ⟨⟨seen, l₁⟩, hpeek, h⟩ := exists_of_bind h
    refine ⟨l₁, hl.of_peek hpeek, ?_⟩
    split at h
    · next x _ heq =>
      cases heq
      -- the number would be the second of the tokens
      obtain ⟨m, hnext⟩ := next_of_peek hl.faithful hpeek
      simp only [collect, hnext] at hrest
      exact absurd hrest.symm (hnumber x _)
    · next heq =>
      cases heq
      exact h
  · next name rest heq =>
    obtain ⟨rfl, -⟩ := List.cons.inj heq
    rw [ofToken, if_pos (by simpa using hstart)] at h
    exact ⟨l, hl, h⟩
  · cases hstart

/-- An address that has a value is read up to its end. -/
theorem read_of_evaluate (h : evaluate f d o body = .ok ctx) :
    ∃ t l l₂ l₃, (ofString body).expect .address = .ok (t, l) ∧
      ofToken f d o l.rest.length t l = .ok (ctx, l₂) ∧ l₂.next = .ok (none, l₃) := by
  unfold evaluate at h
  split at h
  · cases h
  obtain ⟨⟨t, l⟩, hfirst, h⟩ := exists_of_bind h
  obtain ⟨⟨value, l₂⟩, hvalue, h⟩ := exists_of_bind h
  obtain ⟨_, hended, h⟩ := exists_of_bind h
  obtain ⟨⟨found, l₃⟩, hnext, hended⟩ := exists_of_bind hended
  cases h
  cases found with
  | none => exact ⟨t, l, l₂, l₃, hfirst, hvalue, hnext⟩
  | some u => cases hended

theorem tokens_of_next {t : Token} {l : Lexer} (h : (ofString body).next = .ok (some t, l)) :
    ∃ k, (tokens body).1 = t :: (collect (k + 1) l).1 := by
  have hshort : l.rest.length < body.toList.length :=
    (next_shorter (faithful_ofString body) h).2
  refine ⟨body.toList.length - 1, ?_⟩
  rw [Nat.sub_add_cancel (Nat.one_le_of_lt hshort), tokens, collect, h]

/-- What an address gives that is an expression, it gives in a scheme part as well. -/
theorem expressionPart_enclosed (hstart : startExpression (tokens body).1 = true)
    (h : evaluate f d o body = .ok ctx) :
    expressionPart f d ('(' :: (body.toList ++ [')'])).length
        ⟨'(' :: (body.toList ++ [')']), none, some (.functionName "xpointer")⟩
      = .ok (ctx, ⟨[], none, some (.fence .rightParen)⟩) := by
  have hopen := at_of_rest ('(' :: (body.toList ++ [')'])) (some (.functionName "xpointer"))
  have hparen : Lexer.expectFence ⟨'(' :: (body.toList ++ [')']), none,
      some (.functionName "xpointer")⟩ .leftParen
      = .ok ⟨body.toList ++ [')'], none, some (.fence .leftParen)⟩ :=
    hopen.expectToken (scan_punctuation (by decide) hopen.rest_eq) _
  have hl : Continued [')'] body.toList.length (ofString body)
      ⟨body.toList ++ [')'], none, some (.fence .leftParen)⟩ :=
    ⟨rfl, rfl, faithful_ofString body, faithful_of_none rfl, Nat.le_refl _⟩
  obtain ⟨t, l, l₂, _, hfirst, hvalue, hend⟩ := read_of_evaluate h
  have hnext := expect_ok_iff.mp hfirst
  -- the first token is the same
  obtain ⟨l', hnext', hl'⟩ := hl.next_some (.paren _ _) hnext
  obtain ⟨k, htokens⟩ := tokens_of_next hnext
  rw [htokens] at hstart
  obtain ⟨l₁, hl₁, hroot⟩ := ofToken_of_startExpression hl'.tight hstart hvalue
  -- there is enough of the larger bound
  have hbound : l.rest.length + [')'].length ≤ ('(' :: (body.toList ++ [')'])).length := by
    have hshort : l.rest.length < body.toList.length :=
      (next_shorter (faithful_ofString body) hnext).2
    simp only [List.length_cons, List.length_append, List.length_nil]
    omega
  obtain ⟨l₂', hroot', hl₂⟩ :=
    (fromRoot_tracks hbound hl₁ (Nat.le_refl _) t).ok hroot (.paren _ _)
  simp only [expressionPart, hparen, expect_ok_iff.mpr hnext', hroot',
    expectFence_ok_iff.mpr (hl₂.next_end hend), bind, Except.bind]

/-- **An address that is an expression** can be put into a scheme part: if it has a value, it has
the same value there, as long as that starts with a place, and otherwise none. -/
theorem evaluate_in_scheme (f : Forest) (d : Document) (o : Options) {body : String} {ctx : Context}
    (hstart : startExpression (tokens body).1 = true) (h : evaluate f d o body = .ok ctx) :
    evaluate f d o ("xpointer(" ++ body ++ ")")
      = .ok (if ctx.head?.any Location.isPlace then ctx else []) := by
  rw [evaluate_of_expressionPart (expressionPart_enclosed hstart h), locating]
  split <;> rfl

/-- From the `a` to behind the second element, by an expression whose target is read from the start
of the range. -/
theorem evaluate_in_scheme_noted :
    evaluate noted ⟨⟨0⟩, .xml⟩ .standard
        "start-point(string-range(id(\"x\"), \"\", 1, 1))/range-to(/r[1]/q[1])"
      = .ok [.range ⟨⟨⟨3⟩, 0⟩, ⟨⟨1⟩, 2⟩⟩] ∧
    evaluate noted ⟨⟨0⟩, .xml⟩ .standard
        ("xpointer(" ++ "start-point(string-range(id(\"x\"), \"\", 1, 1))/range-to(/r[1]/q[1])"
          ++ ")")
      = .ok [.range ⟨⟨⟨3⟩, 0⟩, ⟨⟨1⟩, 2⟩⟩] := by
  have hplain : evaluate noted ⟨⟨0⟩, .xml⟩ .standard
      "start-point(string-range(id(\"x\"), \"\", 1, 1))/range-to(/r[1]/q[1])"
      = .ok [.range ⟨⟨⟨3⟩, 0⟩, ⟨⟨1⟩, 2⟩⟩] := by decide +kernel
  exact ⟨hplain, evaluate_in_scheme noted ⟨⟨0⟩, .xml⟩ .standard (by decide) hplain⟩

/-- A number is a value, but no place. -/
example : (evaluate noted ⟨⟨0⟩, .xml⟩ .standard "xpointer(3)").toOption = some [] := by
  decide

end Address

end TreePointer
