import TreePointer.Token.Lexer

/-!
# Data in which parentheses balance

Passing over the data of a scheme part counts parentheses. What it passes over are the texts of a
small grammar: characters without a meaning, escapes, and texts of the grammar in parentheses.

* `Balanced`: the grammar.
* `skip_balanced`: balanced data is passed over, inside however many parentheses.
* `skip_closed_iff`: passing over succeeds exactly on balanced data before a closing parenthesis.
-/

namespace TreePointer.SchemeData

/-- The characters that mean something in scheme data; a circumflex can stand before them alone. -/
def IsSpecial (c : Char) : Prop := c = '(' ∨ c = ')' ∨ c = '^'

instance (c : Char) : Decidable (IsSpecial c) :=
  inferInstanceAs (Decidable (_ ∨ _))

/-- Texts in which the parentheses that are not escaped balance. -/
inductive Balanced : List Char → Prop
  | nil : Balanced []
  | plain {c : Char} {cs : List Char} (hc : ¬ IsSpecial c) (h : Balanced cs) : Balanced (c :: cs)
  | escape {c : Char} {cs : List Char} (hc : IsSpecial c) (h : Balanced cs) :
      Balanced ('^' :: c :: cs)
  | nest {ds cs : List Char} (hd : Balanced ds) (h : Balanced cs) :
      Balanced ('(' :: (ds ++ ')' :: cs))

namespace Balanced

variable {cs ds : List Char}

theorem of_plain (h : ∀ c ∈ cs, ¬ IsSpecial c) : Balanced cs := by
  induction cs with
  | nil => exact .nil
  | cons c cs ih =>
    exact .plain (h c List.mem_cons_self) (ih fun c' hc' => h c' (List.mem_cons_of_mem c hc'))

theorem append (h : Balanced cs) (h' : Balanced ds) : Balanced (cs ++ ds) := by
  induction h with
  | nil => exact h'
  | plain hc _ ih => exact .plain hc ih
  | escape hc _ ih => exact .escape hc ih
  | nest hd _ _ ih =>
    rw [List.cons_append, List.append_assoc, List.cons_append]
    exact .nest hd ih

theorem parens (h : Balanced cs) : Balanced ('(' :: (cs ++ [')'])) := .nest h .nil

end Balanced

variable {c : Char} {cs d r : List Char}

theorem skip_plain (hc : ¬ IsSpecial c) (depth : Nat) (cs : List Char) :
    skip (depth + 1) (c :: cs) = skip (depth + 1) cs := by
  obtain ⟨hopen, hclose, hescape⟩ : c ≠ '(' ∧ c ≠ ')' ∧ c ≠ '^' := by
    simpa [IsSpecial] using hc
  rw [skip, if_neg hescape, if_neg hopen, if_neg hclose]
  exact fun _ _ h _ => hescape h

theorem skip_escape (hc : IsSpecial c) (depth : Nat) (cs : List Char) :
    skip (depth + 1) ('^' :: c :: cs) = skip (depth + 1) cs :=
  if_pos hc

theorem skip_stray (hc : ¬ IsSpecial c) (depth : Nat) (cs : List Char) :
    skip (depth + 1) ('^' :: c :: cs) = .strayEscape ('^' :: c :: cs) :=
  if_neg hc

theorem skip_open (depth : Nat) (cs : List Char) :
    skip (depth + 1) ('(' :: cs) = skip (depth + 2) cs := rfl

theorem skip_close (depth : Nat) (cs : List Char) :
    skip (depth + 1) (')' :: cs) = skip depth cs := rfl

/-- **Balanced data is passed over**, inside however many parentheses. -/
theorem skip_balanced (h : Balanced d) (depth : Nat) (r : List Char) :
    skip (depth + 1) (d ++ r) = skip (depth + 1) r := by
  induction h generalizing depth r with
  | nil => rfl
  | plain hc _ ih => rw [List.cons_append, skip_plain hc, ih]
  | escape hc _ ih => rw [List.cons_append, List.cons_append, skip_escape hc, ih]
  | nest _ _ ihd ih =>
    rw [List.cons_append, skip_open, List.append_assoc, ihd, List.cons_append, skip_close, ih]

/-- What is passed over up to the next parenthesis that closes is balanced. -/
theorem exists_balanced_of_skip {depth : Nat} (h : skip (depth + 1) cs = .closed r) :
    ∃ d s, Balanced d ∧ cs = d ++ ')' :: s ∧ skip depth s = .closed r := by
  -- behind an inner pair of parentheses the search goes on with a shorter text
  induction hn : cs.length using Nat.strongRecOn generalizing cs depth with
  | _ n ih =>
  subst hn
  rcases cs with _ | ⟨c, cs⟩
  · cases h
  by_cases hc : IsSpecial c
  · rcases hc with rfl | rfl | rfl
    · rw [skip_open] at h
      obtain ⟨d, s, hd, rfl, hs⟩ := ih cs.length (by simp) h rfl
      obtain ⟨d', s', hd', rfl, hs'⟩ :=
        ih s.length (by simp only [List.length_cons, List.length_append]; omega) hs rfl
      exact ⟨'(' :: (d ++ ')' :: d'), s', .nest hd hd', by simp, hs'⟩
    · exact ⟨[], cs, .nil, rfl, h⟩
    · rcases cs with _ | ⟨c, cs⟩
      · cases h
      by_cases hc : IsSpecial c
      · rw [skip_escape hc] at h
        obtain ⟨d, s, hd, rfl, hs⟩ := ih cs.length (by simp only [List.length_cons]; omega) h rfl
        exact ⟨'^' :: c :: d, s, .escape hc hd, rfl, hs⟩
      · rw [skip_stray hc] at h
        cases h
  · rw [skip_plain hc] at h
    obtain ⟨d, s, hd, rfl, hs⟩ := ih cs.length (by simp) h rfl
    exact ⟨c :: d, s, .plain hc hd, rfl, hs⟩

/-- **Passing over succeeds** exactly on balanced data before a closing parenthesis. -/
theorem skip_closed_iff :
    skip 1 cs = .closed r ↔ ∃ d, Balanced d ∧ cs = d ++ ')' :: r := by
  constructor
  · intro h
    obtain ⟨d, s, hd, rfl, hs⟩ := exists_balanced_of_skip h
    rw [skip, Outcome.closed.injEq] at hs
    exact ⟨d, hd, by rw [hs]⟩
  · rintro ⟨d, hd, rfl⟩
    rw [skip_balanced hd, skip_close, skip]

/-- So balanced is what can be passed over before a closing parenthesis. -/
theorem balanced_iff : Balanced d ↔ skip 1 (d ++ [')']) = .closed [] := by
  rw [skip_closed_iff]
  constructor
  · exact fun h => ⟨d, h, rfl⟩
  · rintro ⟨d', hd', heq⟩
    rwa [List.append_cancel_right heq]

instance (d : List Char) : Decidable (Balanced d) :=
  decidable_of_iff _ balanced_iff.symm

example : Balanced "a(b^)c)".toList ∧ ¬ Balanced "a(b".toList ∧ ¬ Balanced "^a".toList := by decide

end TreePointer.SchemeData
