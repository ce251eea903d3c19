import Mathlib.Data.List.Forall2
import Mathlib.Data.List.TakeWhile
import TreePointer.Proofs.Token.Spelling

/-!
# Nothing of a text is lost

A text that is read is taken apart: white space, a token, white space, a token, and so on, up to the
place the lexer has reached. Each token has its own piece of the text, which is the text of the
token, but for a literal, which may stand between other quotes, and a number, which may be written
in many ways.

* `Spells`: the texts of which a token is read.
* `piece_of_scan`: one token, with what is passed over before it.
* `Takes`: tokens taken one after the other; `Takes.pieces`: what they leave and what they were.
* `Takes.isPrefix_collect`, `takes_collect`: they are the first of all tokens of the text, and these
  end at blank text or at a fault.
-/

namespace TreePointer.Lexer

open Unicode

variable {l m : Lexer} {t : Token} {ts : List Token} {c : Char} {cs r : List Char}

/-! ## The piece of a token -/

/-- The texts of which a token is read: a literal between quotes that it does not hold, a number of
digits with at most one point and at least one digit, and any other token of its own text. -/
inductive Spells : List Char → Token → Prop
  | literal {q : Char} {text : String} (hq : q = '"' ∨ q = '\'') (ht : q ∉ text.toList) :
      Spells (q :: (text.toList ++ [q])) (.literal text)
  | whole {ds : List Char} (hd : ds.all Char.isDigit = true) (hne : ds ≠ []) :
      Spells ds (.number (.ofDecimal ds []))
  | pointed {ds es : List Char} (hd : ds.all Char.isDigit = true) (he : es.all Char.isDigit = true)
      (hne : ds ≠ [] ∨ es ≠ []) : Spells (ds ++ '.' :: es) (.number (.ofDecimal ds es))
  | itself {t : Token} (hl : ∀ text, t ≠ .literal text) (hn : ∀ x, t ≠ .number x) :
      Spells t.text.toList t

theorem takeWhile_ne_nil {p : Char → Bool} (hc : p c = true) : (c :: cs).takeWhile p ≠ [] := by
  rw [List.takeWhile_cons_of_pos hc]
  exact List.cons_ne_nil _ _

/-- Where a number starts without a digit, it is a point, and there is a digit behind it. -/
theorem startsNumber_cases (h : startsNumber cs = true) :
    cs.takeWhile Char.isDigit ≠ [] ∨ ∃ d ds, cs = '.' :: d :: ds ∧ d.isDigit = true := by
  unfold startsNumber at h
  split at h
  · exact .inr ⟨_, _, rfl, h⟩
  · exact .inl (takeWhile_ne_nil h)
  · cases h

/-- A number is written in digits, with at most one point and at least one digit. -/
theorem spells_of_readNumber (h : startsNumber cs = true) (hread : readNumber cs = (t, r)) :
    ∃ s, cs = s ++ r ∧ Spells s t := by
  have hsplit := List.takeWhile_append_dropWhile (p := Char.isDigit) (l := cs)
  unfold readNumber at hread
  dsimp only at hread
  split at hread
  · next after hpoint =>
    cases hread
    refine ⟨cs.takeWhile Char.isDigit ++ '.' :: after.takeWhile Char.isDigit, ?_,
      .pointed List.all_takeWhile List.all_takeWhile ?_⟩
    · rw [List.append_assoc, List.cons_append, List.takeWhile_append_dropWhile, ← hpoint, hsplit]
    · rcases startsNumber_cases h with hne | ⟨d, ds, rfl, hd⟩
      · exact .inl hne
      · obtain rfl : d :: ds = after := (List.cons.inj hpoint).2
        exact .inr (takeWhile_ne_nil hd)
  · next hpoint =>
    cases hread
    refine ⟨cs.takeWhile Char.isDigit, hsplit.symm, .whole List.all_takeWhile ?_⟩
    rcases startsNumber_cases h with hne | ⟨d, ds, rfl, -⟩
    · exact hne
    · exact absurd rfl (hpoint (d :: ds))

theorem spells_of_readFixed (h : readFixed cs = some (t, r)) : ∃ s, cs = s ++ r ∧ Spells s t := by
  obtain ⟨hmem, hcs⟩ := text_of_readFixed h
  refine ⟨t.text.toList, hcs.symm, .itself ?_ ?_⟩
  · rintro text rfl
    simp [Token.fixed] at hmem
  · rintro x rfl
    simp [Token.fixed] at hmem

theorem spells_of_readOther {asOperator : Bool} (h : readOther asOperator c cs = .ok (t, r)) :
    ∃ s, c :: cs = s ++ r ∧ Spells s t := by
  rcases readOther_cases h with ⟨rfl, rfl, rfl⟩ | ⟨hq, text, rfl, htext, rfl⟩ | ⟨-, hname⟩
  · refine ⟨['*'], rfl, ?_⟩
    cases asOperator
    · exact .itself (t := .nameTest "*") (by simp) (by simp)
    · exact .itself (t := .operator .multiply) (by simp) (by simp)
  · exact ⟨c :: (text.toList ++ [c]), by simp, .literal hq htext⟩
  · refine ⟨t.text.toList, ?_, ?_⟩
    · rw [← readName_text hname, List.cons_append, List.takeWhile_append_dropWhile]
    · rcases readName_cases hname with ⟨-, -, rfl⟩ | ⟨_, rfl⟩ | ⟨_, rfl⟩ | ⟨_, rfl⟩
      · split <;> exact .itself (by simp) (by simp)
      all_goals exact .itself (by simp) (by simp)

/-- A piece of a text: white space, and the text of a token behind it. -/
structure Piece where
  white : List Char
  source : List Char

/-- The characters of a piece. -/
def Piece.chars (p : Piece) : List Char := p.white ++ p.source

/-- The piece is the one of this token. -/
structure Piece.Of (p : Piece) (t : Token) : Prop where
  white : p.white.all isWhiteSpace = true
  nonempty : p.source ≠ []
  spells : Spells p.source t

/-- **One token** has one piece of the text, and the rest is left. -/
theorem piece_of_scan (h : l.scan = .ok (some (t, r))) :
    ∃ p : Piece, p.Of t ∧ l.rest = p.chars ++ r := by
  obtain ⟨c, cs, hcs, hread⟩ := scan_cases h
  obtain ⟨s, hs, hspells⟩ : ∃ s, c :: cs = s ++ r ∧ Spells s t := by
    rcases hread with ⟨hstart, hnumber⟩ | hfixed | ⟨-, hother⟩
    · exact spells_of_readNumber hstart hnumber
    · exact spells_of_readFixed hfixed
    · exact spells_of_readOther hother
  have hne : s ≠ [] := by
    rintro rfl
    have hshort := (scan_shorter_skipWhite h).2
    rw [hcs, hs, List.nil_append] at hshort
    exact Nat.lt_irrefl _ hshort
  refine ⟨⟨l.rest.takeWhile isWhiteSpace, s⟩, ⟨List.all_takeWhile, hne, hspells⟩, ?_⟩
  rw [Piece.chars, List.append_assoc, ← hs, ← hcs]
  exact List.takeWhile_append_dropWhile.symm

/-- There is no more token exactly where all that is left is white space. -/
theorem scan_eq_none_iff : l.scan = .ok none ↔ l.rest.all isWhiteSpace = true := by
  have hblank : skipWhite l.rest = [] ↔ l.rest.all isWhiteSpace = true := by
    rw [skipWhite, List.dropWhile_eq_nil_iff, List.all_eq_true]
  rw [← hblank]
  constructor
  · intro h
    unfold scan at h
    split at h
    · assumption
    · split at h
      · cases h
      split at h
      · cases h
      split at h
      · cases h
      split at h <;> cases h
  · intro h
    rw [scan, h]

/-! ## Tokens one after the other -/

/-- Some tokens are taken, one after the other, which leaves another lexer. -/
inductive Takes : Lexer → List Token → Lexer → Prop
  | none (l : Lexer) : Takes l [] l
  | more {l m n : Lexer} {t : Token} {ts : List Token} (h : l.next = .ok (some t, m))
      (hm : Takes m ts n) : Takes l (t :: ts) n

/-- There is nothing more to take: all that is left is white space, or a fault is there. -/
inductive Ends (l : Lexer) : Option Fault → Prop
  | blank (h : l.next = .ok (none, l)) (hblank : l.rest.all isWhiteSpace = true) : Ends l none
  | fault {e : Fault} (h : l.next = .error e) : Ends l (some e)

namespace Takes

/-- **Nothing is lost**: each token had its piece of the text. -/
theorem pieces (h : Takes l ts m) (hl : l.Faithful) :
    ∃ ps : List Piece, List.Forall₂ Piece.Of ps ts ∧ l.rest = ps.flatMap Piece.chars ++ m.rest := by
  induction h with
  | none l => exact ⟨[], .nil, rfl⟩
  | more hnext _ ih =>
    obtain ⟨ps, hps, hrest⟩ := ih (hl.next hnext)
    obtain ⟨p, hp, hpiece⟩ := piece_of_scan (scan_of_next hl hnext).1
    exact ⟨p :: ps, .cons hp hps, by rw [hpiece, hrest, List.flatMap_cons, List.append_assoc]⟩

/-- Every token takes at least one character. -/
theorem length_le (h : Takes l ts m) (hl : l.Faithful) :
    ts.length + m.rest.length ≤ l.rest.length := by
  induction h with
  | none l => exact Nat.le_of_eq (Nat.zero_add _)
  | more hnext _ ih =>
    have hle := ih (hl.next hnext)
    have hlt := (next_shorter hl hnext).2
    rw [List.length_cons]
    omega

/-- What is taken is the beginning of what there is. -/
theorem isPrefix_collect (h : Takes l ts m) {n : Nat} (hn : ts.length ≤ n) :
    ts <+: (collect n l).1 := by
  induction h generalizing n with
  | none l => exact List.nil_prefix
  | more hnext _ ih =>
    obtain ⟨k, rfl⟩ : ∃ k, n = k + 1 := Nat.exists_eq_succ_of_ne_zero (Nat.ne_zero_of_lt hn)
    rw [collect, hnext]
    exact List.cons_prefix_cons.mpr ⟨rfl, ih (Nat.le_of_succ_le_succ hn)⟩

end Takes

/-- All tokens can be taken, and then there is nothing more. -/
theorem takes_collect {n : Nat} (hl : l.Faithful) (hn : l.rest.length < n) :
    ∃ m, Takes l (collect n l).1 m ∧ Ends m (collect n l).2 := by
  induction n generalizing l with
  | zero => exact absurd hn (Nat.not_lt_zero _)
  | succ n ih =>
    rw [collect]
    cases hnext : l.next with
    | error e => exact ⟨l, .none l, .fault hnext⟩
    | ok found =>
      obtain ⟨_ | t, m⟩ := found
      · obtain ⟨hscan, rfl⟩ := scan_of_next_none hl hnext
        exact ⟨m, .none m, .blank hnext (scan_eq_none_iff.mp hscan)⟩
      · have hlt := (next_shorter hl hnext).2
        obtain ⟨k, hk, hends⟩ := ih (hl.next hnext) (by omega)
        exact ⟨k, .more hnext hk, hends⟩

end TreePointer.Lexer
