import TreePointer.Token.Lexer

/-!
# Tokens that have to be there

Reading an address means taking one token after the other, most of which have to be there or even
have to be one particular token. What was expected is part of the fault if they are not.

Modelled are `expect_token` (`expect`), `expect_fence`, `expect_comma`, `number_argument`
(`expectInteger`) and the number that `child_sequence` takes (`expectIndex`).

* `expect_ok_iff`: a token is given exactly when the lexer has one.
* `expectToken_ok_iff`: one particular token is given exactly when it comes next.
-/

namespace TreePointer.Lexer

/-- The fault of a text that ends too early. -/
def ended (l : Lexer) (e : Expected) : Fault :=
  l.fault (.ended e)

/-- Takes a token that has to be there. -/
def expect (l : Lexer) (e : Expected) : Except Fault (Token × Lexer) := do
  match ← l.next with
  | (some t, l) => .ok (t, l)
  | (none, l) => .error (l.ended e)

/-- Takes one particular token. -/
def expectToken (l : Lexer) (token : Token) (e : Expected) : Except Fault Lexer := do
  let (t, l) ← l.expect e
  if t = token then .ok l else .error (l.fault (.found e t))

/-- Takes a bracket. -/
def expectFence (l : Lexer) (fence : Fence) : Except Fault Lexer :=
  l.expectToken (.fence fence) (.fence fence)

/-- Takes a comma. -/
def expectComma (l : Lexer) : Except Fault Lexer :=
  l.expectToken .comma .comma

/-- Takes a whole number below `2⁵³`. -/
def expectInteger (l : Lexer) (e : Expected) : Except Fault (Nat × Lexer) := do
  let (t, l) ← l.expect e
  match t with
  | .number x =>
    match x.toNat? with
    | some n => .ok (n, l)
    | none => .error (l.fault (.notInteger e x))
  | t => .error (l.fault (.found e t))

/-- Takes a child number: a positive whole number below `2⁵³`. -/
def expectIndex (l : Lexer) : Except Fault (Nat × Lexer) := do
  let (t, l) ← l.expect .childIndex
  match t with
  | .number x =>
    match x.position? with
    | some n => .ok (n, l)
    | none => .error (l.fault (.notIndex x))
  | t => .error (l.fault (.found .childIndex t))

theorem expect_ok_iff {l l' : Lexer} {e : Expected} {t : Token} :
    l.expect e = .ok (t, l') ↔ l.next = .ok (some t, l') := by
  unfold expect
  rcases l.next with fault | ⟨_ | u, m⟩ <;> simp [bind, Except.bind]

theorem expect_ended {l : Lexer} {e : Expected} (h : l.next = .ok (none, l)) :
    l.expect e = .error (l.ended e) := by
  simp [expect, h, bind, Except.bind]

theorem expectToken_ok_iff {l l' : Lexer} {token : Token} {e : Expected} :
    l.expectToken token e = .ok l' ↔ l.next = .ok (some token, l') := by
  rw [← expect_ok_iff (e := e), expectToken]
  rcases l.expect e with fault | ⟨t, m⟩
  · simp [bind, Except.bind]
  · by_cases ht : t = token <;> simp [bind, Except.bind, ht]

theorem expectFence_ok_iff {l l' : Lexer} {fence : Fence} :
    l.expectFence fence = .ok l' ↔ l.next = .ok (some (.fence fence), l') :=
  expectToken_ok_iff

end TreePointer.Lexer
