import TreePointer.Proofs.Address.Skipping

/-!
# Passing over what is read

What a production reads has balanced parentheses. Passing over an argument token by token therefore
comes past it, and what has been read up to a closing parenthesis can be passed over as well.

* `Passed`: reading has come from one lexer to another one, past balanced parentheses.
* `passed_skipCall`: what has been passed over has balanced parentheses.
* `skipCall_of_passed`: what has balanced parentheses can be passed over.
-/

namespace TreePointer.Expression

open Lexer

variable {l l₁ l₂ m : Lexer} {t : Token}

/-! ## Reading on -/

/-- Reading has come from the first lexer to the second one, past a text with balanced
parentheses. -/
structure Passed (l m : Lexer) : Prop where
  faithful : m.Faithful
  suffix : m.rest <:+ l.rest
  passes : Passes l m

namespace Passed

theorem refl (hl : l.Faithful) : Passed l l :=
  ⟨hl, List.suffix_rfl, fun _ fuel hfuel => ⟨fuel, hfuel, rfl⟩⟩

theorem trans (h : Passed l l₁) (h' : Passed l₁ m) : Passed l m :=
  ⟨h'.faithful, h'.suffix.trans h.suffix, h.passes.trans h'.passes⟩

theorem length_le {b : Nat} (h : Passed l m) (hb : l.rest.length ≤ b) : m.rest.length ≤ b :=
  Nat.le_trans h.suffix.length_le hb

/-- Past a token that is no parenthesis. -/
theorem of_next (hl : l.Faithful) (h : l.next = .ok (some t, m)) (hopen : t ≠ .fence .leftParen)
    (hclose : t ≠ .fence .rightParen) : Passed l m := by
  obtain ⟨hs, hm⟩ := scan_of_next hl h
  have hpasses := Passes.token ⟨rfl, hl⟩ hs hopen hclose
  rw [← hm] at hpasses
  exact ⟨hl.next h, (next_shorter hl h).1, hpasses⟩

theorem of_expect {e : Expected} (hl : l.Faithful) (h : l.expect e = .ok (t, m))
    (hopen : t ≠ .fence .leftParen) (hclose : t ≠ .fence .rightParen) : Passed l m :=
  of_next hl (expect_ok_iff.mp h) hopen hclose

end Passed

/-- Looking at a token does not change which one is expected. -/
theorem expect_of_peek {seen : Option Token} (hl : l.Faithful) (h : l.peek = .ok (seen, m))
    (e : Expected) : m.expect e = l.expect e := by
  obtain ⟨found, hs, -, rfl⟩ := scan_of_peek hl h
  have hheld : At { l with held := found } l.rest := ⟨rfl, faithful_hold hs⟩
  have hat : l.At l.rest := ⟨rfl, hl⟩
  cases found with
  | none => rw [expect_ended (hheld.next_none hs), expect_ended (hat.next_none hs)]; rfl
  | some u => rw [hheld.expect hs, hat.expect hs]

namespace Passed

theorem of_expectToken {e : Expected} (hl : l.Faithful) (h : l.expectToken t e = .ok m)
    (hopen : t ≠ .fence .leftParen) (hclose : t ≠ .fence .rightParen) : Passed l m :=
  of_next hl (expectToken_ok_iff.mp h) hopen hclose

theorem of_expectComma (hl : l.Faithful) (h : l.expectComma = .ok m) : Passed l m :=
  of_expectToken hl h nofun nofun

theorem of_expectInteger {e : Expected} {n : Nat} (hl : l.Faithful)
    (h : l.expectInteger e = .ok (n, m)) : Passed l m := by
  obtain ⟨⟨u, m'⟩, hx, h⟩ := exists_of_bind h
  dsimp only at h
  split at h
  · split at h
    · cases h
      exact of_expect hl hx nofun nofun
    · cases h
  · cases h

theorem of_peek {seen : Option Token} (hl : l.Faithful) (h : l.peek = .ok (seen, m)) :
    Passed l m := by
  have hrest := peek_rest h
  refine ⟨hl.peek h, hrest ▸ List.suffix_rfl, fun depth fuel hfuel => ⟨fuel, hrest ▸ hfuel, ?_⟩⟩
  cases fuel with
  | zero => simp only [skipArguments, ended, fault, hrest]
  | succ fuel => simp only [skipArguments, expect_of_peek hl h]

/-- Past a token that has been looked at before. -/
theorem of_peek_next {u : Option Token} (hl : l.Faithful) (hpeek : l.peek = .ok (some t, l₁))
    (hnext : l₁.next = .ok (u, m)) (hopen : t ≠ .fence .leftParen)
    (hclose : t ≠ .fence .rightParen) : Passed l m := by
  have hpassed := of_peek hl hpeek
  obtain ⟨_ | ⟨u', r⟩, hs, hseen, rfl⟩ := scan_of_peek hl hpeek
  · cases hseen
  · cases hseen
    have hnext' := next_of_scan hpassed.faithful hs
    cases hnext'.symm.trans hnext
    exact hpassed.trans (of_next hpassed.faithful hnext hopen hclose)

/-- Past a call in parentheses. -/
theorem of_fences (hl : l.Faithful) (hopen : l.next = .ok (some (.fence .leftParen), l₁))
    (h : Passed l₁ l₂) (hclose : l₂.expectFence .rightParen = .ok m) : Passed l m := by
  have hnext := expectFence_ok_iff.mp hclose
  obtain ⟨hs, hl₁⟩ := scan_of_next hl hopen
  obtain ⟨hs', hm⟩ := scan_of_next h.faithful hnext
  have hsuffix := (next_shorter h.faithful hnext).1.trans
    (h.suffix.trans (next_shorter hl hopen).1)
  rw [hl₁] at h
  have hpasses := Passes.parens ⟨rfl, hl⟩ hs ⟨rfl, h.faithful⟩ hs' h.passes
  rw [← hm] at hpasses
  exact ⟨h.faithful.next hnext, hsuffix, hpasses⟩

end Passed

/-! ## Passing over an argument -/

/-- Passing over an argument out of some parentheses is the first part of passing over it out of
more. -/
theorem skipArguments_onwards {k b : Nat} (hl : l.Faithful) (h : skipArguments k b l = .ok m) :
    m.Faithful ∧ m.rest <:+ l.rest ∧ ∀ depth fuel, l.rest.length ≤ fuel →
      ∃ fuel', m.rest.length ≤ fuel' ∧
        skipArguments (depth + k) fuel l = skipArguments depth fuel' m := by
  induction b generalizing k l with
  | zero =>
    cases k with
    | zero =>
      cases h
      exact ⟨hl, List.suffix_rfl, fun depth fuel hfuel => ⟨fuel, hfuel, rfl⟩⟩
    | succ k => cases h
  | succ b ih =>
    cases k with
    | zero =>
      cases h
      exact ⟨hl, List.suffix_rfl, fun depth fuel hfuel => ⟨fuel, hfuel, rfl⟩⟩
    | succ k =>
      obtain ⟨⟨t, l₁⟩, hexpect, -⟩ := exists_of_bind h
      have hnext := expect_ok_iff.mp hexpect
      have hshort := next_shorter hl hnext
      rw [skipArguments_of_expect hexpect] at h
      obtain ⟨hm, hsuffix, hrest⟩ := ih (hl.next hnext) h
      refine ⟨hm, hsuffix.trans hshort.1, fun depth fuel hfuel => ?_⟩
      obtain ⟨fuel, rfl⟩ : ∃ fuel', fuel = fuel' + 1 :=
        Nat.exists_eq_add_one.mpr (Nat.lt_of_lt_of_le (Nat.zero_lt_of_lt hshort.2) hfuel)
      rw [← Nat.add_assoc, skipArguments_of_expect hexpect, depthAfter_add]
      exact hrest depth fuel (Nat.le_of_lt_succ (Nat.lt_of_lt_of_le hshort.2 hfuel))

/-- Past a call that has been passed over. -/
theorem passed_skipCall {b : Nat} (hl : l.Faithful) (h : skipCall b l = .ok m) : Passed l m := by
  obtain ⟨l₁, hopen, hskip⟩ := exists_of_bind h
  have hnext := expectFence_ok_iff.mp hopen
  obtain ⟨hs, hl₁⟩ := scan_of_next hl hnext
  obtain ⟨hm, hsuffix, hrest⟩ := skipArguments_onwards (hl.next hnext) hskip
  refine ⟨hm, hsuffix.trans (next_shorter hl hnext).1, fun depth fuel hfuel => ?_⟩
  obtain ⟨fuel₁, hfuel₁, htoken⟩ := skipArguments_token ⟨rfl, hl⟩ hs depth hfuel
  rw [← hl₁] at htoken
  obtain ⟨fuel', hfuel', honwards⟩ := hrest (depth + 1) fuel₁ hfuel₁
  exact ⟨fuel', hfuel', htoken.trans honwards⟩

/-- A text with balanced parentheses can be passed over up to the parenthesis that closes it. -/
theorem skipCall_of_passed {b : Nat} (hopen : l.expectFence .leftParen = .ok l₁)
    (hb : l₁.rest.length ≤ b) (h : Passed l₁ l₂) (hclose : l₂.expectFence .rightParen = .ok m) :
    skipCall b l = .ok m := by
  obtain ⟨fuel, hfuel, hskip⟩ := h.passes 0 b hb
  obtain ⟨hs, hm⟩ := scan_of_next h.faithful (expectFence_ok_iff.mp hclose)
  obtain ⟨fuel', -, htoken⟩ := skipArguments_token ⟨rfl, h.faithful⟩ hs 0 hfuel
  rw [← hm] at htoken
  simp only [skipCall, hopen, bind, Except.bind]
  rw [hskip, htoken]
  exact skipArguments_zero _ _

end TreePointer.Expression
