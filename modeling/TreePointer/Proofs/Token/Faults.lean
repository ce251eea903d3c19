import TreePointer.Token.Expectation

/-!
# Which faults a computation can have

The five kinds of fault tell who is to blame. Reading an address can only find the address at fault:
its text is malformed, or it uses something that is not evaluated. Whatever a reader is given, no
fault of another kind comes from the lexer.

* `FailsIn`: every fault of a computation is of a certain sort.
* `Gives`: what else there is to know of what it gives.
* `Fault.OfAddress`: the faults of the address alone.
* `Lexer.next_fails`, `Lexer.expect_fails` and `Lexer.skipData_fails`: reading has no other faults.
-/

namespace TreePointer

/-- If the computation fails, then with a fault of a certain sort. -/
def FailsIn {α : Type} (E : Fault → Prop) (x : Except Fault α) : Prop :=
  ∀ e, x = .error e → E e

/-- A fault that lies in the address, whatever document it is read against. -/
inductive Fault.OfAddress : Fault → Prop
  | malformed (cause : SyntaxFault) (remaining : List Char) : OfAddress (.malformed cause remaining)
  | unsupported (cause : UnsupportedFault) : OfAddress (.unsupported cause)

namespace FailsIn

variable {α β : Type} {E : Fault → Prop}

theorem ok (a : α) : FailsIn E (.ok a) := by
  intro e he
  cases he

theorem error {e : Fault} (h : E e) : FailsIn E (.error e : Except Fault α) := by
  intro e' he
  cases he
  exact h

/-- A computation in two parts has the faults of its parts. -/
theorem bind {x : Except Fault α} {k : α → Except Fault β} (hx : FailsIn E x)
    (hk : ∀ a, x = .ok a → FailsIn E (k a)) : FailsIn E (x >>= k) := by
  cases x with
  | error e => exact .error (hx e rfl)
  | ok a => exact hk a rfl

end FailsIn

/-- The computation gives what has a property, or fails in a certain way. -/
inductive Gives {α : Type} (E : Fault → Prop) (Q : α → Prop) : Except Fault α → Prop
  | ok {a : α} (h : Q a) : Gives E Q (.ok a)
  | error {e : Fault} (h : E e) : Gives E Q (.error e)

namespace Gives

variable {α β : Type} {E : Fault → Prop} {Q : α → Prop} {S : β → Prop} {x : Except Fault α}

theorem of_ok (h : ∃ a, x = .ok a ∧ Q a) : Gives E Q x := by
  obtain ⟨a, rfl, ha⟩ := h
  exact .ok ha

/-- Nothing is known of what a computation gives that only has certain faults. -/
theorem of_failsIn (h : FailsIn E x) : Gives E (fun _ => True) x := by
  cases x with
  | ok a => exact .ok trivial
  | error e => exact .error (h e rfl)

theorem bind {k : α → Except Fault β} (hx : Gives E Q x) (hk : ∀ a, Q a → Gives E S (k a)) :
    Gives E S (x >>= k) := by
  cases hx with
  | ok h => exact hk _ h
  | error h => exact .error h

theorem imp {Q' : α → Prop} (h : Gives E Q x) (hQ : ∀ a, Q a → Q' a) : Gives E Q' x := by
  cases h with
  | ok h => exact .ok (hQ _ h)
  | error h => exact .error h

/-- It is known of what is given where it comes from. -/
theorem self (h : Gives E Q x) : Gives E (fun a => x = .ok a ∧ Q a) x := by
  cases h with
  | ok h => exact .ok ⟨rfl, h⟩
  | error h => exact .error h

theorem fails (h : Gives E Q x) : FailsIn E x := by
  cases h with
  | ok _ => exact .ok _
  | error h => exact .error h

theorem of_eq_ok (h : Gives E Q x) {a : α} (hx : x = .ok a) : Q a := by
  cases h with
  | ok h =>
    cases hx
    exact h
  | error _ => cases hx

theorem of_toOption (h : Gives E Q x) {a : α} (hx : x.toOption = some a) : Q a := by
  cases h with
  | ok h =>
    cases hx
    exact h
  | error _ => cases hx

end Gives

/-- A computation that reads an address and asks no document. -/
abbrev IsReading {α : Type} (x : Except Fault α) : Prop :=
  FailsIn Fault.OfAddress x

namespace Lexer

variable (l : Lexer)

/-! ## Taking tokens -/

/-- Reading fails where the lexer is, or because of what is not evaluated. -/
theorem scan_fails_at :
    FailsIn (fun e => (∃ cause, e = l.fault cause) ∨ ∃ cause, e = .unsupported cause) l.scan := by
  unfold scan
  split
  · exact .ok _
  · split
    · exact .ok _
    · split
      · exact .ok _
      · split
        · exact .error (.inr ⟨_, rfl⟩)
        · split
          · exact .ok _
          · exact .error (.inl ⟨_, rfl⟩)

theorem scan_fails : IsReading l.scan := by
  intro e he
  rcases l.scan_fails_at e he with ⟨cause, rfl⟩ | ⟨cause, rfl⟩
  · exact .malformed _ _
  · exact .unsupported _

theorem ahead_fails : IsReading l.ahead := by
  unfold ahead
  split
  · exact .ok _
  · exact l.scan_fails

/-- **Taking a token** fails only by what the text says. -/
theorem next_fails : IsReading l.next := by
  refine l.ahead_fails.bind fun found _ => ?_
  split
  · exact .ok _
  · exact .ok _

theorem peek_fails : IsReading l.peek :=
  l.ahead_fails.bind fun _ _ => .ok _

/-- Passing over the data of a scheme part fails only by what the text says. -/
theorem skipData_fails : IsReading l.skipData.1 := by
  unfold skipData
  split
  · next e he => exact .error (l.next_fails e he)
  · exact .error (.malformed _ _)
  · split
    · split
      · exact .ok _
      · exact .error (.malformed _ _)
      · exact .error (.malformed _ _)
    · exact .error (.malformed _ _)

/-! ## Tokens that have to be there -/

/-- **Taking a token that has to be there** fails only by what the text says. -/
theorem expect_fails (e : Expected) : IsReading (l.expect e) := by
  refine l.next_fails.bind fun ⟨t, l⟩ _ => ?_
  cases t with
  | some t => exact .ok _
  | none => exact .error (.malformed _ _)

theorem expectToken_fails (token : Token) (e : Expected) : IsReading (l.expectToken token e) := by
  refine (l.expect_fails e).bind fun ⟨t, l⟩ _ => ?_
  dsimp only
  split
  · exact .ok _
  · exact .error (.malformed _ _)

theorem expectFence_fails (fence : Fence) : IsReading (l.expectFence fence) :=
  l.expectToken_fails _ _

theorem expectComma_fails : IsReading l.expectComma :=
  l.expectToken_fails _ _

theorem expectInteger_fails (e : Expected) : IsReading (l.expectInteger e) := by
  refine (l.expect_fails e).bind fun ⟨t, l⟩ _ => ?_
  cases t with
  | number x =>
    dsimp only
    split
    · exact .ok _
    · exact .error (.malformed _ _)
  | _ => exact .error (.malformed _ _)

theorem expectIndex_fails : IsReading l.expectIndex := by
  refine (l.expect_fails .childIndex).bind fun ⟨t, l⟩ _ => ?_
  cases t with
  | number x =>
    dsimp only
    split
    · exact .ok _
    · exact .error (.malformed _ _)
  | _ => exact .error (.malformed _ _)

end Lexer

end TreePointer
