import TreePointer.Proofs.Token.Spelling

/-!
# Tokens of a text that goes on

A token is read as before if a text is put behind the one it stands in, as long as it does not reach
the place where the two meet. There a name or a number could go on. It cannot if a closing
parenthesis stands there, since no token but a literal holds one; and if the first text holds a
closing parenthesis, the reading comes to that before it comes to the place.

* `Parted`: no token of a text can go on into the text behind it.
* `scan_parted`: a token is read as before.
* `scan_parted_end`: where the first text ends, the closing parenthesis behind it is read.
-/

namespace TreePointer

open Unicode

namespace Lexer

/-! ## Texts -/

/-- No token of the text `cs` goes on into the text `more` behind it: there is no such text, or a
closing parenthesis stands in the first one or starts the second one. -/
def Parted (cs more : List Char) : Prop :=
  more = [] ∨ ')' ∈ cs ∨ more.head? = some ')'

namespace Parted

variable {cs ds more : List Char} {p : Char → Bool}

theorem nil (cs : List Char) : Parted cs [] := .inl rfl

theorem of_mem (h : ')' ∈ cs) : Parted cs more := .inr (.inl h)

theorem paren (cs more : List Char) : Parted cs (')' :: more) := .inr (.inr rfl)

theorem of_suffix (h : Parted cs more) (hs : cs <:+ ds) : Parted ds more := by
  rcases h with h | h | h
  · exact .inl h
  · exact .inr (.inl (hs.subset h))
  · exact .inr (.inr h)

theorem tail {c : Char} (h : Parted (c :: cs) more) (hc : c ≠ ')') : Parted cs more := by
  rcases h with h | h | h
  · exact .inl h
  · exact .inr (.inl ((List.mem_cons.mp h).resolve_left hc.symm))
  · exact .inr (.inr h)

theorem takeWhile_append (h : Parted cs more) (hp : p ')' = false) :
    (cs ++ more).takeWhile p = cs.takeWhile p := by
  rcases h with rfl | h | h
  · rw [List.append_nil]
  · obtain ⟨v, w, rfl⟩ := List.append_of_mem h
    rw [List.append_assoc, List.cons_append, takeWhile_append_stop hp, takeWhile_append_stop hp]
  · obtain ⟨w, rfl⟩ := List.head?_eq_some_iff.mp h
    exact takeWhile_append_stop hp cs w

theorem dropWhile_append (h : Parted cs more) (hp : p ')' = false) :
    (cs ++ more).dropWhile p = cs.dropWhile p ++ more := by
  rcases h with rfl | h | h
  · rw [List.append_nil, List.append_nil]
  · obtain ⟨v, w, rfl⟩ := List.append_of_mem h
    rw [List.append_assoc, List.cons_append, dropWhile_append_stop hp, dropWhile_append_stop hp,
      List.append_assoc, List.cons_append]
  · obtain ⟨w, rfl⟩ := List.head?_eq_some_iff.mp h
    exact dropWhile_append_stop hp cs w

theorem dropWhile (h : Parted cs more) (hp : p ')' = false) : Parted (cs.dropWhile p) more := by
  rcases h with h | h | h
  · exact .inl h
  · obtain ⟨v, w, rfl⟩ := List.append_of_mem h
    rw [dropWhile_append_stop hp]
    exact .of_mem (List.mem_append_right _ List.mem_cons_self)
  · exact .inr (.inr h)

/-- The second text starts with a closing parenthesis, unless the first one holds one. -/
theorem head (h : Parted cs more) (hcs : ')' ∉ cs) : more.head?.all (· == ')') := by
  rcases h with rfl | h | h
  · rfl
  · exact absurd h hcs
  · rw [h]
    rfl

end Parted

/-! ## One token -/

variable {l l' : Lexer} {cs r more : List Char} {t : Token} {c : Char}

theorem skipWhite_parted (h : Parted cs more) : skipWhite (cs ++ more) = skipWhite cs ++ more :=
  h.dropWhile_append (by decide)

theorem startsNumber_parted (h : Parted cs more) (c : Char) :
    startsNumber (c :: (cs ++ more)) = startsNumber (c :: cs) := by
  have hone : ∀ {c : Char} (ds : List Char), c ≠ '.' → startsNumber (c :: ds) = c.isDigit := by
    intro c ds hc
    cases ds <;> simp [startsNumber, hc]
  by_cases hc : c = '.'
  · subst hc
    cases cs with
    | cons d ds => rfl
    | nil =>
      rcases more with _ | ⟨d, ds⟩
      · rfl
      · obtain rfl : d = ')' := by simpa using h.head List.not_mem_nil
        rfl
  · rw [hone _ hc, hone _ hc]

theorem readNumber_parted (h : Parted cs more) :
    readNumber (cs ++ more) = ((readNumber cs).1, (readNumber cs).2 ++ more) := by
  have hp : Char.isDigit ')' = false := by decide
  have hrest := h.dropWhile hp
  unfold readNumber
  rw [h.takeWhile_append hp, h.dropWhile_append hp]
  cases hcs : cs.dropWhile Char.isDigit with
  | nil =>
    rw [hcs] at hrest
    rcases more with _ | ⟨d, ds⟩
    · rfl
    · obtain rfl : d = ')' := by simpa using hrest.head List.not_mem_nil
      rfl
  | cons c r =>
    rw [hcs] at hrest
    by_cases hc : c = '.'
    · subst hc
      have hr := hrest.tail (by decide)
      simp only [List.cons_append, hr.takeWhile_append hp, hr.dropWhile_append hp]
    · simp [hc]

/-- A mark is read as before, since none goes on with a closing parenthesis. -/
theorem dropText?_parted (h : Parted cs more) (ht : t ∈ Token.fixed) :
    dropText? t.text (c :: (cs ++ more)) = (dropText? t.text (c :: cs)).map (· ++ more) := by
  have hmarks : ∀ t ∈ Token.fixed, ')' ∉ t.text.toList.drop 1 := by decide
  unfold dropText?
  rw [← List.cons_append]
  by_cases hp : t.text.toList <+: c :: cs
  · rw [if_pos (List.isPrefixOf_iff_prefix.mpr hp),
      if_pos (List.isPrefixOf_iff_prefix.mpr (hp.trans (List.prefix_append _ _))),
      List.drop_append_of_le_length hp.length_le]
    rfl
  · have hp' : ¬ t.text.toList <+: c :: cs ++ more := by
      intro hmore
      -- otherwise the mark goes on behind the first text
      obtain ⟨s, hs⟩ :=
        (List.prefix_or_prefix_of_prefix hmore (List.prefix_append _ _)).resolve_left hp
      rw [← hs, List.prefix_append_right_inj] at hmore
      have hdrop : t.text.toList.drop 1 = cs ++ s := by rw [← hs]; rfl
      rcases s with _ | ⟨d, ds⟩
      · rw [List.append_nil] at hs
        exact hp (hs ▸ List.prefix_rfl)
      · have hcs : ')' ∉ cs := fun hmem => hmarks t ht (hdrop ▸ List.mem_append_left _ hmem)
        obtain ⟨w, rfl⟩ := hmore
        obtain rfl : d = ')' := by simpa using h.head hcs
        exact hmarks t ht (hdrop ▸ List.mem_append_right _ List.mem_cons_self)
    rw [if_neg (mt List.isPrefixOf_iff_prefix.mp hp), if_neg (mt List.isPrefixOf_iff_prefix.mp hp')]
    rfl

theorem findSome?_congr {α β : Type} {f g : α → Option β} {as : List α}
    (h : ∀ a ∈ as, f a = g a) : as.findSome? f = as.findSome? g := by
  induction as with
  | nil => rfl
  | cons a as ih =>
    rw [List.findSome?_cons, List.findSome?_cons, h a List.mem_cons_self,
      ih fun a' ha' => h a' (List.mem_cons_of_mem a ha')]

theorem readFixed_parted (h : Parted cs more) (c : Char) :
    readFixed (c :: (cs ++ more)) = (readFixed (c :: cs)).map fun u => (u.1, u.2 ++ more) := by
  rw [readFixed, readFixed, List.map_findSome?]
  refine findSome?_congr fun t ht => ?_
  rw [dropText?_parted h ht, Function.comp_apply, Option.map_map, Option.map_map]
  rfl

/-- A literal ends with its quote, whatever comes after that. -/
theorem readLiteral_append {q : Char} (h : readLiteral q cs = .ok (t, r)) (more : List Char) :
    readLiteral q (cs ++ more) = .ok (t, r ++ more) := by
  obtain ⟨text, rfl, htext, rfl⟩ := readLiteral_eq h
  rw [List.append_assoc, List.cons_append, readLiteral_quoted htext]

theorem readQualified_parted (h : Parted cs more) (name : List Char) :
    readQualified name (cs ++ more)
      = ((readQualified name cs).1, (readQualified name cs).2 ++ more) := by
  have hp : isNameChar ')' = false := by decide
  have hstart : isNameStart ')' = false := by decide
  match cs with
  | [] =>
    rcases more with _ | ⟨d, ds⟩
    · rfl
    · obtain rfl : d = ')' := by simpa using h.head List.not_mem_nil
      rfl
  | [c] =>
    by_cases hc : c = ':'
    · subst hc
      rcases more with _ | ⟨d, ds⟩
      · rfl
      · obtain rfl : d = ')' := by simpa using h.head (by decide)
        simp [readQualified, hstart]
    · simp [readQualified, hc]
  | c :: d :: r =>
    by_cases hc : c = ':'
    · subst hc
      by_cases hd : d = '*'
      · subst hd
        rfl
      · by_cases hname : isNameStart d = true
        · have hr := (h.tail (by decide)).tail (ne_of_isNameStart hname hstart)
          simp only [readQualified, List.cons_append, if_pos hname, hr.takeWhile_append hp,
            hr.dropWhile_append hp]
        · simp only [readQualified, List.cons_append, if_neg hname]
    · simp [readQualified, hc]

theorem isPrefixOf_colons_parted (h : Parted cs more) :
    [':', ':'].isPrefixOf (cs ++ more) = [':', ':'].isPrefixOf cs := by
  match cs with
  | [] =>
    rcases more with _ | ⟨d, ds⟩
    · rfl
    · obtain rfl : d = ')' := by simpa using h.head List.not_mem_nil
      rfl
  | [c] =>
    by_cases hc : c = ':'
    · subst hc
      rcases more with _ | ⟨d, ds⟩
      · rfl
      · obtain rfl : d = ')' := by simpa using h.head (by decide)
        rfl
    · simp [List.isPrefixOf, Ne.symm hc]
  | c :: d :: r => rfl

theorem head_paren_parted (h : Parted cs more) :
    (cs ++ more).head? = some '(' ↔ cs.head? = some '(' := by
  rcases cs with _ | ⟨c, cs⟩
  · rcases more with _ | ⟨d, ds⟩
    · rfl
    · obtain rfl : d = ')' := by simpa using h.head List.not_mem_nil
      simp
  · simp

theorem readName_parted {asOperator : Bool} {name after : List Char} (hp : Parted after more)
    (h : readName asOperator name after = .ok (t, r)) :
    readName asOperator name (after ++ more) = .ok (t, r ++ more) := by
  have hahead : Parted (skipWhite after) more := hp.dropWhile (by decide)
  simp only [readName, skipWhite_parted hp, isPrefixOf_colons_parted hahead,
    head_paren_parted hahead] at h ⊢
  split at h
  · next ho =>
    rw [if_pos ho]
    cases h
    rfl
  next ho =>
  rw [if_neg ho]
  split at h
  · next hop =>
    rw [if_pos hop]
    split at h
    · cases h
      rfl
    · cases h
  next hop =>
  rw [if_neg hop]
  split at h
  · next hcolons =>
    rw [if_pos hcolons]
    split at h
    · next haxis =>
      rw [if_pos haxis]
      cases h
      rfl
    · cases h
  · next hcolons =>
    rw [if_neg hcolons, readQualified_parted hp, Except.ok.inj h]

theorem readOther_parted {asOperator : Bool} (hp : Parted cs more)
    (h : readOther asOperator c cs = .ok (t, r)) :
    readOther asOperator c (cs ++ more) = .ok (t, r ++ more) := by
  have hparen : isNameChar ')' = false := by decide
  unfold readOther at h ⊢
  split at h
  · next hstar =>
    rw [if_pos hstar]
    cases h
    rfl
  next hstar =>
  rw [if_neg hstar]
  split at h
  · next hquote =>
    rw [if_pos hquote]
    exact readLiteral_append h more
  next hquote =>
  rw [if_neg hquote]
  split at h
  · cases h
  next hcolon =>
  rw [if_neg hcolon]
  split at h
  · cases h
  next hexclamation =>
  rw [if_neg hexclamation]
  split at h
  · next hname =>
    rw [if_pos hname, hp.takeWhile_append hparen, hp.dropWhile_append hparen]
    exact readName_parted (hp.dropWhile hparen) h
  · cases h

/-- Reading depends on the text and on whether an operator is due. -/
theorem scan_congr (hrest : l'.rest = l.rest) (hop : l'.atOperator = l.atOperator) :
    l'.scan = l.scan := by
  simp only [scan, fault, hrest, hop]

/-- **A token** is read as before if the text goes on where no token can go on. -/
theorem scan_parted (hp : Parted l.rest more) (hrest : l'.rest = l.rest ++ more)
    (hop : l'.atOperator = l.atOperator) (h : l.scan = .ok (some (t, r))) :
    l'.scan = .ok (some (t, r ++ more)) := by
  have hwhite : Parted (skipWhite l.rest) more := hp.dropWhile (by decide)
  unfold scan at h ⊢
  rw [hrest, skipWhite_parted hp, hop]
  split at h
  · cases h
  next c cs hcs =>
  rw [hcs] at hwhite ⊢
  rw [List.cons_append]
  by_cases hparen : c = ')'
  · subst hparen
    cases h
    rfl
  have htail := hwhite.tail hparen
  dsimp only
  rw [startsNumber_parted htail, readFixed_parted htail]
  split at h
  · next hnumber =>
    have hread : readNumber (c :: cs) = (t, r) := Option.some.inj (Except.ok.inj h)
    rw [if_pos hnumber, ← List.cons_append, readNumber_parted hwhite, hread]
  next hnumber =>
  rw [if_neg hnumber]
  split at h
  · next found hfixed =>
    cases h
    rw [hfixed]
    rfl
  next hfixed =>
  rw [hfixed, Option.map_none]
  dsimp only
  split at h
  · cases h
  next hdollar =>
  rw [if_neg hdollar]
  split at h
  · next found hother =>
    cases h
    rw [readOther_parted htail hother]
  · cases h

/-- At the end of a text there is white space at most. -/
theorem skipWhite_of_scan_none (h : l.scan = .ok none) : skipWhite l.rest = [] := by
  unfold scan at h
  split at h
  · assumption
  · split at h
    · cases h
    · split at h
      · cases h
      · split at h
        · cases h
        · split at h <;> cases h

theorem paren_not_mem_of_scan_none (h : l.scan = .ok none) : ')' ∉ l.rest := by
  intro hmem
  obtain ⟨v, w, hrest⟩ := List.append_of_mem hmem
  have hwhite := skipWhite_of_scan_none h
  rw [hrest, skipWhite, dropWhile_append_stop (by decide)] at hwhite
  exact List.append_ne_nil_of_right_ne_nil _ (List.cons_ne_nil _ _) hwhite

/-- Where the first text ends, the closing parenthesis behind it is read. -/
theorem scan_parted_end (hrest : l'.rest = l.rest ++ ')' :: more) (h : l.scan = .ok none) :
    l'.scan = .ok (some (.fence .rightParen, more)) := by
  have hparen : scan ⟨')' :: more, none, l'.previous⟩ = .ok (some (.fence .rightParen, more)) :=
    scan_punctuation (by decide) rfl
  have hskip : skipWhite (')' :: more) = ')' :: more := rfl
  unfold scan at hparen ⊢
  rw [hskip] at hparen
  rw [hrest, skipWhite_parted (.paren _ _), skipWhite_of_scan_none h, List.nil_append]
  exact hparen

end Lexer

end TreePointer
