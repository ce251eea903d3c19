/-!
# Sets of characters as ranges of code points

A property of characters is a list of closed ranges of code points, in rising order. A character
has the property when one of the ranges holds its code point. The shortest of these lists is that of
the 25 characters of the property White_Space: the ASCII blanks and controls, the no-break space,
the typographic spaces and the line and paragraph separators. The zero-width space and the byte
order mark are not among them. Modelled is the test `is_whitespace` of a character
(`isWhiteSpace`).

* `Ranges.contains_iff`: membership in terms of the ranges.
* `Ranges.apart`: sets without a common character.
-/

namespace TreePointer.Unicode

/-- Closed ranges of code points. -/
abbrev Ranges := List (Nat × Nat)

/-- Whether some range holds the code point of `c`. -/
def Ranges.contains (rs : Ranges) (c : Char) : Bool :=
  rs.any fun r => decide (r.1 ≤ c.toNat) && decide (c.toNat ≤ r.2)

theorem Ranges.contains_iff {rs : Ranges} {c : Char} :
    rs.contains c ↔ ∃ r ∈ rs, r.1 ≤ c.toNat ∧ c.toNat ≤ r.2 := by
  simp [Ranges.contains]

/-- No range of the one set meets a range of the other one. -/
def Ranges.apart (rs ss : Ranges) : Bool :=
  rs.all fun r => ss.all fun s => r.2.blt s.1 || s.2.blt r.1

theorem Ranges.not_contains_of_apart {rs ss : Ranges} {c : Char} (h : rs.apart ss = true)
    (hs : ss.contains c) : rs.contains c = false := by
  rw [Bool.eq_false_iff]
  intro hr
  obtain ⟨r, hmem, hlo, hhi⟩ := contains_iff.mp hr
  obtain ⟨s, hmem', hlo', hhi'⟩ := contains_iff.mp hs
  have hrs := List.all_eq_true.mp (List.all_eq_true.mp h r hmem) s hmem'
  simp only [Bool.or_eq_true, Nat.blt_eq] at hrs
  omega

/-! ## White space -/

/-- All white-space characters. -/
def whiteSpaceRanges : Ranges :=
  [(0x9, 0xD), (0x20, 0x20), (0x85, 0x85), (0xA0, 0xA0), (0x1680, 0x1680), (0x2000, 0x200A),
   (0x2028, 0x2029), (0x202F, 0x202F), (0x205F, 0x205F), (0x3000, 0x3000)]

/-- Whether `c` has the property White_Space. -/
def isWhiteSpace (c : Char) : Bool :=
  whiteSpaceRanges.contains c

example : isWhiteSpace '\u3000' ∧ isWhiteSpace '\u0085' ∧ ¬ isWhiteSpace '\u200b' := by decide

end TreePointer.Unicode
