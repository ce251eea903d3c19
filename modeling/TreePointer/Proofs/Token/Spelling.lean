import TreePointer.Proofs.Token.Decimal
import TreePointer.Token.Progress

/-!
# What the pieces of an address are read as

An address is put together from names, numbers, quoted texts and punctuation. Each piece is read
back as one token, whatever follows it, as long as that does not go on with the piece: a name ends
before a bracket, a number before what is neither digit nor point.

* `At`: a lexer has a certain text before it, whether it holds a token or not.
* `scan_punctuation`, `scan_function`, `scan_tag`, `scan_literal`, `scan_number`: one for each piece.
* `readOther_cases`, `readName_cases`: what else there is to read.
* `Lexer.IsTag`: the names that are read as one name test.
-/

namespace TreePointer

open Unicode

namespace Lexer

/-! ## Lexers before a text -/

/-- The lexer has this text before it. -/
structure At (l : Lexer) (cs : List Char) : Prop where
  rest_eq : l.rest = cs
  faithful : l.Faithful

theorem at_of_rest (cs : List Char) (previous : Option Token) : At ⟨cs, none, previous⟩ cs :=
  ⟨rfl, faithful_of_none rfl⟩

theorem at_ofString (text : String) : (ofString text).At text.toList :=
  ⟨rfl, faithful_ofString text⟩

variable {l l' : Lexer} {cs r : List Char} {t : Token} {c : Char}

theorem At.next (h : l.At cs) (hs : l.scan = .ok (some (t, r))) :
    l.next = .ok (some t, ⟨r, none, some t⟩) :=
  next_of_scan h.faithful hs

theorem At.expect (h : l.At cs) (hs : l.scan = .ok (some (t, r))) (e : Expected) :
    l.expect e = .ok (t, ⟨r, none, some t⟩) :=
  expect_ok_iff.mpr (h.next hs)

/-- Looking at a token leaves the text before the lexer as it is. -/
theorem At.peek (h : l.At cs) (hs : l.scan = .ok (some (t, r))) :
    ∃ l', l.peek = .ok (some t, l') ∧ l'.At cs ∧ l'.scan = .ok (some (t, r)) := by
  refine ⟨{ l with held := some (t, r) }, ?_, ⟨h.rest_eq, ?_⟩, hs⟩
  · simp [Lexer.peek, h.faithful.ahead_eq_scan, hs, bind, Except.bind]
  · intro found hf
    rw [Option.some.injEq] at hf
    subst hf
    exact hs

theorem At.peek_none (h : l.At cs) (hs : l.scan = .ok none) :
    ∃ l', l.peek = .ok (none, l') ∧ l'.At cs ∧ l'.scan = .ok none := by
  refine ⟨{ l with held := none }, ?_, ⟨h.rest_eq, faithful_of_none rfl⟩, hs⟩
  simp [Lexer.peek, h.faithful.ahead_eq_scan, hs, bind, Except.bind]

theorem At.next_none (h : l.At cs) (hs : l.scan = .ok none) : l.next = .ok (none, l) := by
  simp [Lexer.next, h.faithful.ahead_eq_scan, hs, bind, Except.bind]

theorem At.expectToken (h : l.At cs) (hs : l.scan = .ok (some (t, r))) (e : Expected) :
    l.expectToken t e = .ok ⟨r, none, some t⟩ := by
  simp [Lexer.expectToken, h.expect hs e, bind, Except.bind]

/-! ## Punctuation and space -/

theorem scan_nil (h : l.rest = []) : l.scan = .ok none := by
  rw [scan, h]
  rfl

/-- The marks that are tokens whatever follows them. -/
def punctuation : List (Char × Token) :=
  [('(', .fence .leftParen), (')', .fence .rightParen), ('[', .fence .leftBracket),
   (']', .fence .rightBracket), (',', .comma)]

theorem scan_punctuation {c : Char} (hc : (c, t) ∈ punctuation) (h : l.rest = c :: r) :
    l.scan = .ok (some (t, r)) := by
  rw [scan, h]
  simp only [punctuation, List.mem_cons, Prod.mk.injEq, List.not_mem_nil, or_false] at hc
  rcases hc with ⟨rfl, rfl⟩ | ⟨rfl, rfl⟩ | ⟨rfl, rfl⟩ | ⟨rfl, rfl⟩ | ⟨rfl, rfl⟩ <;> rfl

/-- A space before a token is passed over. -/
theorem scan_space {found : Option (Token × List Char)} (h : l.rest = ' ' :: cs)
    (hs : scan ⟨cs, none, l.previous⟩ = .ok found) : l.scan = .ok found := by
  have hwhite : skipWhite (' ' :: cs) = skipWhite cs := rfl
  have hop : atOperator ⟨cs, none, l.previous⟩ = l.atOperator := rfl
  unfold scan at hs ⊢
  rw [h, hwhite]
  rw [hop] at hs
  cases hcs : skipWhite cs with
  | nil => simpa only [hcs] using hs
  | cons c r =>
    simp only [hcs] at hs ⊢
    by_cases hn : startsNumber (c :: r) = true
    · rw [if_pos hn] at hs ⊢
      exact hs
    rw [if_neg hn] at hs ⊢
    cases hf : readFixed (c :: r) with
    | some found => simpa only [hf] using hs
    | none =>
      simp only [hf] at hs ⊢
      by_cases hv : c = '$'
      · rw [if_pos hv] at hs
        cases hs
      · rw [if_neg hv] at hs ⊢
        cases ho : readOther l.atOperator c r with
        | ok found => simpa only [ho] using hs
        | error cause =>
          simp only [ho] at hs
          cases hs

/-! ## Names -/

/-- A name starts with an ASCII letter, an alphabetic character beyond ASCII, or an underscore. -/
theorem isNameStart_cases {c : Char} (h : isNameStart c = true) :
    (65 ≤ c.toNat ∧ c.toNat ≤ 90) ∨ (97 ≤ c.toNat ∧ c.toNat ≤ 122) ∨
      (128 ≤ c.toNat ∧ alphabeticRanges.contains c = true) ∨ c.toNat = 95 := by
  have h : ((decide (65 ≤ c.val ∧ c.val ≤ 90) || (decide (97 ≤ c.val) && decide (c.val ≤ 122))) ||
      (decide (128 ≤ c.toNat) && alphabeticRanges.contains c) || c == '_') = true := h
  simp only [Bool.or_eq_true, Bool.and_eq_true, decide_eq_true_eq, beq_iff_eq] at h
  rcases h with ((h | h) | h) | rfl
  · exact .inl ⟨UInt32.le_iff_toNat_le.mp h.1, UInt32.le_iff_toNat_le.mp h.2⟩
  · exact .inr (.inl ⟨UInt32.le_iff_toNat_le.mp h.1, UInt32.le_iff_toNat_le.mp h.2⟩)
  · exact .inr (.inr (.inl h))
  · exact .inr (.inr (.inr rfl))

theorem not_isDigit_of_isNameStart {c : Char} (h : isNameStart c = true) :
    c.isDigit = false := by
  rw [Bool.eq_false_iff]
  intro hd
  simp only [Char.isDigit, Bool.and_eq_true, decide_eq_true_eq] at hd
  have hle : c.toNat ≤ 57 := UInt32.le_iff_toNat_le.mp hd.2
  rcases isNameStart_cases h with h | h | h | h <;> omega

/-- No name starts with white space. -/
theorem not_isWhiteSpace_of_isNameStart {c : Char} (h : isNameStart c = true) :
    isWhiteSpace c = false := by
  have habove : whiteSpaceRanges.apart alphabeticRanges = true := by decide +kernel
  have hletters : ∀ w ∈ whiteSpaceRanges, w.2 < 65 ∨ 122 < w.1 := by decide
  have hascii : 65 ≤ c.toNat → c.toNat ≤ 122 → isWhiteSpace c = false := by
    intro hge hle
    rw [Bool.eq_false_iff]
    intro hw
    obtain ⟨w, hmem, hlo, hhi⟩ := Ranges.contains_iff.mp hw
    have hout := hletters w hmem
    omega
  rcases isNameStart_cases h with ⟨hge, hle⟩ | ⟨hge, hle⟩ | ⟨-, h⟩ | h
  · exact hascii hge (by omega)
  · exact hascii (by omega) hle
  · exact Ranges.not_contains_of_apart habove h
  · exact hascii (by omega) (by omega)

theorem not_isWhiteSpace_of_isDigit {c : Char} (h : c.isDigit = true) : isWhiteSpace c = false := by
  simp only [Char.isDigit, Bool.and_eq_true, decide_eq_true_eq] at h
  have hge : 48 ≤ c.toNat := UInt32.le_iff_toNat_le.mp h.1
  have hle : c.toNat ≤ 57 := UInt32.le_iff_toNat_le.mp h.2
  rw [Bool.eq_false_iff]
  intro hw
  obtain ⟨r, hr, hlo, hhi⟩ := Ranges.contains_iff.mp hw
  have hranges : ∀ r ∈ whiteSpaceRanges, r.2 < 48 ∨ 57 < r.1 := by decide
  have := hranges r hr
  omega

theorem ne_of_isNameStart {c d : Char} (h : isNameStart c = true) (hd : isNameStart d = false) :
    c ≠ d := by
  rintro rfl
  rw [h] at hd
  cases hd

/-- No mark starts like a name. -/
theorem readFixed_of_isNameStart {c : Char} (h : isNameStart c = true) (cs : List Char) :
    readFixed (c :: cs) = none := by
  have hmarks : ∀ t ∈ Token.fixed, t.text.toList.head?.all fun d => !isNameStart d := by
    decide
  rw [readFixed, List.findSome?_eq_none_iff]
  intro t ht
  have hhead := hmarks t ht
  have hlen := text_ne_empty_of_mem_fixed ht
  rw [Option.map_eq_none_iff, dropText?, if_neg]
  intro hp
  cases hd : t.text.toList with
  | nil =>
    rw [hd] at hlen
    exact Nat.lt_irrefl 0 hlen
  | cons d ds =>
    rw [hd, List.isPrefixOf, Bool.and_eq_true, beq_iff_eq] at hp
    rw [hd, hp.1] at hhead
    simp [h] at hhead

/-- What starts like a name is read as one. -/
theorem readOther_of_isNameStart (hc : isNameStart c = true) (asOperator : Bool) (cs : List Char) :
    readOther asOperator c cs
      = readName asOperator (c :: cs.takeWhile isNameChar) (cs.dropWhile isNameChar) := by
  have hne : ∀ d, isNameStart d = false → c ≠ d := fun d hd => ne_of_isNameStart hc hd
  rw [readOther, if_neg (hne '*' (by decide)),
    if_neg (not_or.mpr ⟨hne '"' (by decide), hne '\'' (by decide)⟩),
    if_neg (hne ':' (by decide)), if_neg (hne '!' (by decide)), if_pos hc]

/-- Where neither a number nor a mark stands, what stands there is read otherwise. -/
theorem scan_other {c : Char} (hwhite : isWhiteSpace c = false)
    (hnumber : startsNumber (c :: cs) = false) (hfixed : readFixed (c :: cs) = none)
    (hdollar : c ≠ '$') (h : l.rest = c :: cs) {found : Token × List Char}
    (hother : readOther l.atOperator c cs = .ok found) : l.scan = .ok (some found) := by
  have hskip : skipWhite (c :: cs) = c :: cs := by
    rw [skipWhite, List.dropWhile_cons_of_neg (by simp [hwhite])]
  rw [scan, h, hskip]
  simp only [hnumber, hfixed, hother, if_neg hdollar, Bool.false_eq_true, if_false]

/-- A token that starts like a name is read as one. -/
theorem scan_name {c : Char} (hc : isNameStart c = true) (h : l.rest = c :: cs)
    {found : Token × List Char}
    (hr : readName l.atOperator (c :: cs.takeWhile isNameChar) (cs.dropWhile isNameChar)
      = .ok found) : l.scan = .ok (some found) := by
  have hnumber : startsNumber (c :: cs) = false := by
    rw [Bool.eq_false_iff]
    intro hn
    have hdot := eq_dot_of_startsNumber hn (by simp [not_isDigit_of_isNameStart hc])
    exact ne_of_isNameStart hc (by decide) hdot
  exact scan_other (not_isWhiteSpace_of_isNameStart hc) hnumber (readFixed_of_isNameStart hc cs)
    (ne_of_isNameStart hc (by decide)) h (by rw [readOther_of_isNameStart hc, hr])

/-- A name, as the characters of a text make one. -/
def isName (name : String) : Bool :=
  match name.toList with
  | c :: cs => isNameStart c && cs.all isNameChar
  | [] => false

/-- A name that is read as a function before a parenthesis. -/
def isFunctionName (name : String) : Bool :=
  match name.toList with
  | c :: cs =>
    isNameStart c && !isWhiteSpace c && cs.all isNameChar && !Token.nodeTypes.contains name
  | [] => false

theorem isFunctionName_of_isName {name : String} (h : isName name = true)
    (hnode : name ∉ Token.nodeTypes) : isFunctionName name = true := by
  unfold isName at h
  unfold isFunctionName
  split at h
  · next c cs hcs =>
    rw [Bool.and_eq_true] at h
    simp [h.1, h.2, hnode, not_isWhiteSpace_of_isNameStart h.1]
  · cases h

theorem takeWhile_append_stop {p : Char → Bool} {d : Char} (hd : p d = false) (xs ys : List Char) :
    (xs ++ d :: ys).takeWhile p = xs.takeWhile p := by
  induction xs with
  | nil => rw [List.nil_append, List.takeWhile_cons_of_neg (by simp [hd]), List.takeWhile_nil]
  | cons x xs ih => rw [List.cons_append, List.takeWhile_cons, List.takeWhile_cons, ih]

theorem dropWhile_append_stop {p : Char → Bool} {d : Char} (hd : p d = false) (xs ys : List Char) :
    (xs ++ d :: ys).dropWhile p = xs.dropWhile p ++ d :: ys := by
  induction xs with
  | nil => rw [List.nil_append, List.dropWhile_cons_of_neg (by simp [hd])]; rfl
  | cons x xs ih =>
    by_cases hx : p x = true
    · rw [List.cons_append, List.dropWhile_cons_of_pos hx, List.dropWhile_cons_of_pos hx, ih]
    · rw [List.cons_append, List.dropWhile_cons_of_neg hx, List.dropWhile_cons_of_neg hx]
      rfl

/-- A name before a parenthesis is a function. -/
theorem scan_function {name : String} (hname : isFunctionName name = true)
    (h : l.rest = name.toList ++ '(' :: r) :
    l.scan = .ok (some (.functionName name, '(' :: r)) := by
  unfold isFunctionName at hname
  split at hname
  · next c cs hcs =>
    simp only [Bool.and_eq_true, Bool.not_eq_true', List.all_eq_true] at hname
    obtain ⟨⟨⟨hc, -⟩, hall⟩, hnode⟩ := hname
    have hp : isNameChar '(' = false := by decide
    have htake : cs.takeWhile isNameChar = cs := by
      rw [← List.append_nil cs, List.takeWhile_append_of_pos hall, List.takeWhile_nil]
    have hdrop : cs.dropWhile isNameChar = [] := by
      rw [← List.append_nil cs, List.dropWhile_append_of_pos hall, List.dropWhile_nil]
    rw [hcs, List.cons_append] at h
    refine scan_name hc h ?_
    have hstring : String.ofList (c :: cs) = name := by rw [← hcs, String.ofList_toList]
    have hwhite : skipWhite ('(' :: r) = '(' :: r := rfl
    have hmem : ¬ name ∈ Token.nodeTypes := by simpa using hnode
    rw [takeWhile_append_stop hp, dropWhile_append_stop hp, htake, hdrop, readName]
    simp only [List.nil_append, hwhite, List.head?_cons, if_true, hstring, if_neg hmem]
  · cases hname

/-! ## How tokens are read -/

/-- A text is read up to the quote behind it that does not occur in it. -/
theorem readLiteral_quoted {q : Char} {text : String} (ht : q ∉ text.toList) (r : List Char) :
    readLiteral q (text.toList ++ q :: r) = .ok (.literal text, r) := by
  have hall : ∀ d ∈ text.toList, (d != q) = true := by
    intro d hd
    rw [bne_iff_ne]
    rintro rfl
    exact ht hd
  rw [readLiteral, List.dropWhile_append_of_pos hall, List.dropWhile_cons_of_neg (by simp)]
  simp only [List.takeWhile_append_of_pos hall]
  rw [List.takeWhile_cons_of_neg (by simp), List.append_nil, String.ofList_toList]

/-- A literal is read up to the next quote of its kind. -/
theorem readLiteral_eq {q : Char} (h : readLiteral q cs = .ok (t, r)) :
    ∃ text : String, t = .literal text ∧ q ∉ text.toList ∧ cs = text.toList ++ q :: r := by
  unfold readLiteral at h
  split at h
  · next d r' heq =>
    cases h
    obtain rfl : d = q := by
      have hstop := List.head?_dropWhile_not (· != q) cs
      rw [heq] at hstop
      simpa using hstop
    refine ⟨_, rfl, ?_, ?_⟩
    · rw [String.toList_ofList]
      intro hmem
      simpa using List.all_eq_true.mp List.all_takeWhile d hmem
    · rw [String.toList_ofList, ← heq, List.takeWhile_append_dropWhile]
  · cases h

/-- The tokens that are neither numbers nor marks: a star, a literal, or what is read as a name. -/
theorem readOther_cases {asOperator : Bool} (h : readOther asOperator c cs = .ok (t, r)) :
    (c = '*' ∧ t = (if asOperator then .operator .multiply else .nameTest "*") ∧ r = cs) ∨
      ((c = '"' ∨ c = '\'') ∧
        ∃ text : String, t = .literal text ∧ c ∉ text.toList ∧ cs = text.toList ++ c :: r) ∨
      (isNameStart c = true ∧ readName asOperator (c :: cs.takeWhile isNameChar)
        (cs.dropWhile isNameChar) = .ok (t, r)) := by
  by_cases hc : isNameStart c = true
  · exact .inr (.inr ⟨hc, readOther_of_isNameStart hc asOperator cs ▸ h⟩)
  unfold readOther at h
  split at h
  · next hstar =>
    cases h
    exact .inl ⟨hstar, rfl, rfl⟩
  split at h
  · next hquote => exact .inr (.inl ⟨hquote, readLiteral_eq h⟩)
  split at h
  · cases h
  split at h
  · cases h
  · cases h

/-- What is read as a name: a node type or a function before a parenthesis, and else a token of
another kind. -/
theorem readName_cases {asOperator : Bool} {first after : List Char}
    (h : readName asOperator first after = .ok (t, r)) :
    ((skipWhite after).head? = some '(' ∧ r = after ∧
        t = (if String.ofList first ∈ Token.nodeTypes then .nodeType (String.ofList first)
          else .functionName (String.ofList first))) ∨
      (∃ o, t = .operator o) ∨ (∃ axis, t = .axisName axis) ∨ ∃ name, t = .nameTest name := by
  simp only [readName] at h
  split at h
  · next hparen =>
    cases h
    exact .inl ⟨hparen, rfl, rfl⟩
  split at h
  · split at h
    · cases h
      exact .inr (.inl ⟨_, rfl⟩)
    · cases h
  split at h
  · split at h
    · cases h
      exact .inr (.inr (.inl ⟨_, rfl⟩))
    · cases h
  · refine .inr (.inr (.inr ?_))
    unfold readQualified at h
    split at h
    · cases h
      exact ⟨_, rfl⟩
    · split at h
      · cases h
        exact ⟨_, rfl⟩
      · cases h
        exact ⟨_, rfl⟩
    · cases h
      exact ⟨_, rfl⟩

theorem readOther_function {asOperator asOperator' : Bool} {name : String}
    (h : readOther asOperator c cs = .ok (.functionName name, r)) :
    readOther asOperator' c cs = .ok (.functionName name, r) := by
  rcases readOther_cases h with ⟨-, ht, -⟩ | ⟨-, _, ht, -⟩ | ⟨hc, hname⟩
  · split at ht <;> cases ht
  · cases ht
  · rcases readName_cases hname with ⟨hparen, rfl, ht⟩ | ⟨_, ht⟩ | ⟨_, ht⟩ | ⟨_, ht⟩
    · rw [readOther_of_isNameStart hc, readName, if_pos hparen, ht]
    · cases ht
    · cases ht
    · cases ht

/-- **A function is read as a function** behind whatever token and white space. -/
theorem scan_function_of_skipWhite {name : String}
    (h : l.scan = .ok (some (.functionName name, r)))
    (hwhite : skipWhite l'.rest = skipWhite l.rest) :
    l'.scan = .ok (some (.functionName name, r)) := by
  unfold scan at h ⊢
  rw [hwhite]
  split at h
  · cases h
  · next hcs =>
    split at h
    · next hnumber => rw [if_pos hnumber, h]
    · next hnumber =>
      rw [if_neg hnumber]
      split at h
      · exact h
      · split at h
        · cases h
        · next hdollar =>
          rw [if_neg hdollar]
          split at h
          · next hother =>
            cases h
            rw [readOther_function hother]
          · cases h

theorem readNumber_number (cs : List Char) : ∃ x, (readNumber cs).1 = .number x := by
  unfold readNumber
  dsimp only
  split <;> exact ⟨_, rfl⟩

/-- Whether a token is a literal, an operator, or has a name: all but numbers and marks. -/
def isWord : Token → Bool
  | .operator _ | .nameTest _ | .literal _ | .nodeType _ | .functionName _ | .axisName _ => true
  | _ => false

theorem isWord_of_readOther {asOperator : Bool} (h : readOther asOperator c cs = .ok (t, r)) :
    isWord t = true := by
  rcases readOther_cases h with ⟨-, rfl, -⟩ | ⟨-, _, rfl, -⟩ | ⟨-, hname⟩
  · split <;> rfl
  · rfl
  · rcases readName_cases hname with ⟨-, -, rfl⟩ | ⟨_, rfl⟩ | ⟨_, rfl⟩ | ⟨_, rfl⟩
    · split <;> rfl
    all_goals rfl

/-- **What a token is read from**: a number, a mark, or what is neither. -/
theorem scan_cases (h : l.scan = .ok (some (t, r))) :
    ∃ c cs, skipWhite l.rest = c :: cs ∧
      ((startsNumber (c :: cs) = true ∧ readNumber (c :: cs) = (t, r)) ∨
        readFixed (c :: cs) = some (t, r) ∨
        (readFixed (c :: cs) = none ∧ readOther l.atOperator c cs = .ok (t, r))) := by
  unfold scan at h
  split at h
  · cases h
  next c cs hcs =>
  refine ⟨c, cs, hcs, ?_⟩
  split at h
  · next hnumber => exact .inl ⟨hnumber, Option.some.inj (Except.ok.inj h)⟩
  split at h
  · next hfixed =>
    cases h
    exact .inr (.inl hfixed)
  next hfixed =>
  split at h
  · cases h
  split at h
  · next hother =>
    cases h
    exact .inr (.inr ⟨hfixed, hother⟩)
  · cases h

/-- A closing parenthesis is read from itself. -/
theorem skipWhite_of_scan_paren (h : l.scan = .ok (some (.fence .rightParen, r))) :
    skipWhite l.rest = ')' :: r := by
  obtain ⟨c, cs, hcs, ⟨-, hnumber⟩ | hfixed | ⟨-, hother⟩⟩ := scan_cases h
  · obtain ⟨x, hx⟩ := readNumber_number (c :: cs)
    rw [hnumber] at hx
    cases hx
  · rw [hcs, ← (text_of_readFixed hfixed).2]
    rfl
  · cases isWord_of_readOther hother

/-! ## Tags -/

/-- The name is read as one name test, and nothing else. -/
def IsTag (name : String) : Prop :=
  tokens name = ([.nameTest name], none)

instance (name : String) : Decidable (IsTag name) :=
  inferInstanceAs (Decidable (_ = _))

/-- A name test is a star or what is read as a name. -/
theorem readOther_nameTest {asOperator : Bool} {c : Char} {name : String}
    (h : readOther asOperator c cs = .ok (.nameTest name, r)) :
    (c = '*' ∧ name = "*" ∧ r = cs) ∨
      (isNameStart c = true ∧ readName asOperator (c :: cs.takeWhile isNameChar)
        (cs.dropWhile isNameChar) = .ok (.nameTest name, r)) := by
  rcases readOther_cases h with ⟨hc, ht, hr⟩ | ⟨-, _, ht, -⟩ | hname
  · split at ht
    · cases ht
    · cases ht
      exact .inl ⟨hc, rfl, hr⟩
  · cases ht
  · exact .inr hname

/-- What is read as a name is written as it was read. -/
theorem readName_text {asOperator : Bool} {first after : List Char}
    (h : readName asOperator first after = .ok (t, r)) :
    first ++ after = t.text.toList ++ r := by
  simp only [readName] at h
  split at h
  · cases h
    split <;> simp [Token.text]
  split at h
  · split at h
    · next o ho =>
      cases h
      have hname : o.text = String.ofList first := by simpa using List.find?_some ho
      simp [Token.text, hname]
    · cases h
  split at h
  · split at h
    · cases h
      simp [Token.text]
    · cases h
  unfold readQualified at h
  split at h
  · cases h
    simp [Token.text]
  · split at h
    · cases h
      simp [Token.text, List.takeWhile_append_dropWhile]
    · cases h
      simp [Token.text]
  · cases h
    simp [Token.text]

theorem readOther_of_scan {name : String} (h : l.scan = .ok (some (.nameTest name, r))) :
    ∃ c cs, skipWhite l.rest = c :: cs ∧
      readOther l.atOperator c cs = .ok (.nameTest name, r) := by
  obtain ⟨c, cs, hcs, ⟨-, hnumber⟩ | hfixed | ⟨-, hother⟩⟩ := scan_cases h
  · obtain ⟨x, hx⟩ := readNumber_number (c :: cs)
    rw [hnumber] at hx
    cases hx
  · have hmem := (text_of_readFixed hfixed).1
    simp [Token.fixed] at hmem
  · exact ⟨c, cs, hcs, hother⟩

/-- A name test is written as it was read. -/
theorem rest_of_scan {name : String} (h : l.scan = .ok (some (.nameTest name, r))) :
    skipWhite l.rest = name.toList ++ r := by
  obtain ⟨c, cs, hcs, ho⟩ := readOther_of_scan h
  rw [hcs]
  rcases readOther_nameTest ho with ⟨rfl, rfl, rfl⟩ | ⟨-, hn⟩
  · rfl
  · refine Eq.trans ?_ (readName_text hn)
    rw [List.cons_append, List.takeWhile_append_dropWhile]

theorem collect_succ_ok {n : Nat} {t : Token} {ts : List Token}
    (h : collect (n + 1) l = (t :: ts, none)) :
    ∃ l', l.next = .ok (some t, l') ∧ collect n l' = (ts, none) := by
  unfold collect at h
  split at h
  · cases h
  · cases h
  · next u l' hn =>
    cases hc : collect n l' with
    | mk us e =>
      simp only [hc, Prod.mk.injEq, List.cons.injEq] at h
      obtain ⟨⟨rfl, rfl⟩, rfl⟩ := h
      exact ⟨l', hn, hc⟩

/-- A tag read by itself leaves nothing behind. -/
theorem IsTag.scan_eq {name : String} (h : IsTag name) :
    (ofString name).scan = .ok (some (.nameTest name, [])) ∧
      skipWhite name.toList = name.toList := by
  obtain ⟨l', hn, -⟩ := collect_succ_ok h
  have hahead := (faithful_ofString name).ahead_eq_scan
  cases hs : (ofString name).scan with
  | error e => simp [next, hahead, hs, bind, Except.bind] at hn
  | ok found =>
    cases found with
    | none => simp [next, hahead, hs, bind, Except.bind] at hn
    | some found =>
      obtain ⟨t, r⟩ := found
      obtain ⟨rfl, -⟩ : t = .nameTest name ∧ _ := by
        simpa [next, hahead, hs, bind, Except.bind] using hn
      have hrest : skipWhite name.toList = name.toList ++ r := rest_of_scan hs
      have hlen : (skipWhite name.toList).length ≤ name.toList.length :=
        (List.dropWhile_suffix _).length_le
      have hr : r = [] := by
        rw [hrest, List.length_append] at hlen
        exact List.length_eq_zero_iff.mp (by omega)
      subst hr
      exact ⟨rfl, by rw [hrest, List.append_nil]⟩

theorem isNameChar_of_isNameStart {c : Char} (h : isNameStart c = true) : isNameChar c = true := by
  simp only [isNameStart, Bool.or_eq_true] at h
  rcases h with h | h <;> simp [isNameChar, h]

/-- The characters of which tags are made. -/
def isTagChar (c : Char) : Bool := isNameChar c || c == ':' || c == '*'

theorem isTagChar_of_isNameStart {c : Char} (h : isNameStart c = true) : isTagChar c = true := by
  simp [isTagChar, isNameChar_of_isNameStart h]

theorem isTagChar_of_mem_takeWhile {c : Char} (h : c ∈ cs.takeWhile isNameChar) :
    isTagChar c = true := by
  simp [isTagChar, List.all_eq_true.mp List.all_takeWhile c h]

/-- A name test consists of characters of tags. -/
theorem isTagChar_of_readName {asOperator : Bool} {first after : List Char} {name : String}
    (h : readName asOperator first after = .ok (.nameTest name, r))
    (hfirst : ∀ c ∈ first, isTagChar c = true) : ∀ c ∈ name.toList, isTagChar c = true := by
  simp only [readName] at h
  split at h
  · split at h <;> cases h
  split at h
  · split at h <;> cases h
  split at h
  · split at h <;> cases h
  unfold readQualified at h
  split at h
  · cases h
    have hmarks : isTagChar ':' = true ∧ isTagChar '*' = true := by decide
    simpa [or_imp, forall_and] using ⟨hfirst, hmarks⟩
  · split at h
    · next hc =>
      cases h
      have hcolon : isTagChar ':' = true := by decide
      simpa [or_imp, forall_and] using
        ⟨hfirst, hcolon, isTagChar_of_isNameStart hc, fun _ h => isTagChar_of_mem_takeWhile h⟩
    · cases h
      simpa using hfirst
  · cases h
    simpa using hfirst

/-- **A tag** consists of characters of tags. -/
theorem IsTag.isTagChar {name : String} (h : IsTag name) :
    ∀ c ∈ name.toList, isTagChar c = true := by
  obtain ⟨c, cs, -, ho⟩ := readOther_of_scan h.scan_eq.1
  rcases readOther_nameTest ho with ⟨-, rfl, -⟩ | ⟨hc, hname⟩
  · intro c hc
    obtain rfl : c = '*' := List.mem_singleton.mp hc
    decide
  · refine isTagChar_of_readName hname fun d hd => ?_
    rcases List.mem_cons.mp hd with rfl | hd
    · exact isTagChar_of_isNameStart hc
    · exact isTagChar_of_mem_takeWhile hd

/-- No tag has white space in it. -/
theorem not_isWhiteSpace_of_isTagChar {c : Char} (h : isTagChar c = true) :
    isWhiteSpace c = false := by
  have habove : whiteSpaceRanges.apart numericRanges = true := by decide
  simp only [isTagChar, isNameChar, isNumeric, Bool.or_eq_true, Bool.and_eq_true,
    beq_iff_eq] at h
  rcases h with (((((h | h | ⟨-, h⟩) | rfl) | rfl) | rfl) | rfl) | rfl
  · exact not_isWhiteSpace_of_isNameStart (by simp [isNameStart, h])
  · exact not_isWhiteSpace_of_isDigit h
  · exact Ranges.not_contains_of_apart habove h
  all_goals decide

/-- Whether a tag ends before this character, and is not read as anything else because of it. -/
def endsTag (d : Char) : Bool :=
  !isNameChar d && !isWhiteSpace d && d != ':' && d != '('

theorem endsTag_iff {d : Char} : endsTag d = true ↔
    isNameChar d = false ∧ isWhiteSpace d = false ∧ d ≠ ':' ∧ d ≠ '(' := by
  simp [endsTag, and_assoc]

theorem readQualified_of_ne {first : List Char} {d : Char} (hd : d ≠ ':') (r : List Char) :
    readQualified first (d :: r) = (.nameTest (String.ofList first), d :: r) := by
  unfold readQualified
  split
  · next heq => exact absurd (List.cons.inj heq).1 hd
  · next heq => exact absurd (List.cons.inj heq).1 hd
  · rfl

/-- What is read up to the end of the text is read up to such a character as well. -/
theorem readName_stop {first after : List Char} {name : String} {d : Char}
    (hd : endsTag d = true) (h : readName false first after = .ok (.nameTest name, []))
    (r : List Char) : readName false first (after ++ d :: r) = .ok (.nameTest name, d :: r) := by
  obtain ⟨hp, hwhite, hcolon, hparen⟩ := endsTag_iff.mp hd
  simp only [readName] at h
  split at h
  · split at h <;> cases h
  split at h
  · cases ‹false = true›
  split at h
  · split at h <;> cases h
  · unfold readQualified at h
    split at h
    · cases h
      rfl
    · split at h
      · next c cs hstar _ _ hc =>
        simp only [Except.ok.injEq, Prod.mk.injEq] at h
        obtain ⟨hname, hrest⟩ := h
        have hne := ne_of_isNameStart (d := ':') hc (by decide)
        have hskip : skipWhite (':' :: c :: (cs ++ d :: r)) = ':' :: c :: (cs ++ d :: r) := rfl
        have haxis : ¬ [':', ':'].isPrefixOf (':' :: c :: (cs ++ d :: r)) = true := by
          simp [List.isPrefixOf, Ne.symm hne]
        simp only [List.cons_append, readName, hskip, List.head?_cons]
        rw [if_neg (by decide), if_neg (by decide), if_neg haxis, readQualified, if_pos hc,
          takeWhile_append_stop hp, dropWhile_append_stop hp, hname, hrest, List.nil_append]
        exact hstar
      · cases h
    · cases h
      have hskip : skipWhite (d :: r) = d :: r :=
        List.dropWhile_cons_of_neg (by simp [hwhite])
      have haxis : ¬ [':', ':'].isPrefixOf (d :: r) = true := by
        simp [List.isPrefixOf, Ne.symm hcolon]
      simp only [List.nil_append, readName, hskip, List.head?_cons, Option.some.injEq,
        if_neg hparen, if_neg haxis, readQualified_of_ne hcolon]
      rfl

/-- **A tag is a name test** where no operator is due, before what cannot belong to it. -/
theorem scan_tag {name : String} {d : Char} (hd : endsTag d = true) (ht : IsTag name)
    (hop : l.atOperator = false) (h : l.rest = name.toList ++ d :: r) :
    l.scan = .ok (some (.nameTest name, d :: r)) := by
  obtain ⟨hs, hwhite⟩ := ht.scan_eq
  obtain ⟨c, cs, hcs, ho⟩ := readOther_of_scan hs
  have hname : name.toList = c :: cs := hwhite.symm.trans hcs
  rw [hname, List.cons_append] at h
  rcases readOther_nameTest ho with ⟨rfl, rfl, rfl⟩ | ⟨hc, hn⟩
  · exact scan_other (by decide) rfl rfl (by decide) h (by rw [hop]; rfl)
  · have hp := (endsTag_iff.mp hd).1
    refine scan_name hc h ?_
    rw [takeWhile_append_stop hp, dropWhile_append_stop hp, hop]
    exact readName_stop hd hn r

/-! ## Slashes and literals -/

/-- A slash that is not doubled. -/
theorem scan_slash {c : Char} (hc : c ≠ '/') (h : l.rest = '/' :: c :: cs) :
    l.scan = .ok (some (.operator .slash, c :: cs)) := by
  have hfixed : readFixed ('/' :: c :: cs) = some (.operator .slash, c :: cs) := by
    simp [readFixed, Token.fixed, Token.text, Fence.text, Operator.text, dropText?,
      Ne.symm hc]
  rw [scan, h]
  show (if startsNumber ('/' :: c :: cs) = true then _ else _) = _
  rw [if_neg (by simp [startsNumber]), hfixed]

/-- A text between quotes that do not occur in it. -/
theorem scan_literal {q : Char} (hq : q = '"' ∨ q = '\'') {text : String} (ht : q ∉ text.toList)
    (h : l.rest = q :: (text.toList ++ q :: r)) : l.scan = .ok (some (.literal text, r)) := by
  have hliteral := readLiteral_quoted ht r
  rcases hq with rfl | rfl
  · refine scan_other (by decide) rfl rfl (by decide) h ?_
    rw [readOther, if_neg (by decide), if_pos (Or.inl rfl), hliteral]
  · refine scan_other (by decide) rfl rfl (by decide) h ?_
    rw [readOther, if_neg (by decide), if_pos (Or.inr rfl), hliteral]

/-! ## Numbers -/

theorem toList_toString (n : Nat) : (toString n).toList = Nat.toDigits 10 n := by
  simp [toString, Nat.toList_repr]

/-- The text goes on with neither a digit nor a point. -/
def EndsNumber (cs : List Char) : Prop :=
  ∀ c ∈ cs.head?, c.isDigit = false ∧ c ≠ '.'

theorem endsNumber_of_not {c : Char} (hd : c.isDigit = false) (hc : c ≠ '.') (r : List Char) :
    EndsNumber (c :: r) := by
  intro c' h
  obtain rfl : c = c' := by simpa using h
  exact ⟨hd, hc⟩

theorem startsNumber_of_isDigit {c : Char} (h : c.isDigit = true) :
    startsNumber (c :: cs) = true := by
  unfold startsNumber
  split
  · next heq =>
    obtain ⟨rfl, -⟩ := List.cons.inj heq
    cases h
  · next heq =>
    obtain ⟨rfl, -⟩ := List.cons.inj heq
    exact h
  · next heq => cases heq

/-- The decimal digits of a whole number. -/
theorem scan_digits {n : Nat} (hr : EndsNumber r) (h : l.rest = Nat.toDigits 10 n ++ r) :
    l.scan = .ok (some (.number (.ofDecimal (Nat.toDigits 10 n) []), r)) := by
  have hall : ∀ c ∈ Nat.toDigits 10 n, c.isDigit = true := fun c hc =>
    Nat.isDigit_of_mem_toDigits (by decide) (by decide) hc
  have hstop : r.takeWhile Char.isDigit = [] ∧ r.dropWhile Char.isDigit = r := by
    cases r with
    | nil => exact ⟨rfl, rfl⟩
    | cons c r =>
      have hc := (hr c rfl).1
      exact ⟨List.takeWhile_cons_of_neg (by simp [hc]), List.dropWhile_cons_of_neg (by simp [hc])⟩
  have hread : readNumber (Nat.toDigits 10 n ++ r)
      = (.number (.ofDecimal (Nat.toDigits 10 n) []), r) := by
    unfold readNumber
    simp only [List.takeWhile_append_of_pos hall, List.dropWhile_append_of_pos hall, hstop,
      List.append_nil]
    split
    · exact absurd rfl (hr '.' rfl).2
    · rfl
  cases hd : Nat.toDigits 10 n with
  | nil => exact absurd hd Nat.toDigits_ne_nil
  | cons d ds =>
    have hdigit : d.isDigit = true := hall d (hd ▸ List.mem_cons_self)
    have hwhite : skipWhite (d :: (ds ++ r)) = d :: (ds ++ r) :=
      List.dropWhile_cons_of_neg (by simp [not_isWhiteSpace_of_isDigit hdigit])
    have hstart : startsNumber (d :: (ds ++ r)) = true := startsNumber_of_isDigit hdigit
    rw [hd, List.cons_append] at h hread
    rw [scan, h, hwhite]
    simp only [if_pos hstart, hread]

/-- A whole number below the bound is read as it is. -/
theorem scan_number {n : Nat} (hn : n < Binary64.exactBound) (hr : EndsNumber r)
    (h : l.rest = Nat.toDigits 10 n ++ r) : l.scan = .ok (some (.number (.ofNat n), r)) := by
  rw [scan_digits hr h, Binary64.ofDecimal_toDigits hn]

end Lexer

end TreePointer
