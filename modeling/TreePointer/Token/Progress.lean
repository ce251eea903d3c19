import TreePointer.Token.Expectation

/-!
# Every token takes text

What is left behind a token is a proper suffix of what was there before it. This bounds the number
of tokens in a text by its length, and it is why the length of the text that is left bounds every
loop of a reader. It needs lexers that hold what they would read, which all lexers do that come from
a text.

* `Lexer.scan_shorter`: a token that is read takes at least one character.
* `Lexer.Faithful` is kept by `next` and `peek`, and then `ahead` is `scan`.
* `Lexer.scan_of_next` and `Lexer.scan_of_peek`: what is taken or looked at is what is read.
* `Lexer.next_shorter` and `Lexer.peek_rest`: a token that is taken leaves a proper suffix, one that
  is looked at leaves all.
-/

namespace TreePointer.Lexer

/-- A text is what is left of another one after at least one character. -/
def Shorter (r cs : List Char) : Prop :=
  r <:+ cs ∧ r.length < cs.length

theorem Shorter.trans_suffix {r cs ds : List Char} (h : Shorter r cs) (hs : cs <:+ ds) :
    Shorter r ds :=
  ⟨h.1.trans hs, Nat.lt_of_lt_of_le h.2 hs.length_le⟩

theorem Shorter.of_suffix_tail {r cs : List Char} (c : Char) (h : r <:+ cs) :
    Shorter r (c :: cs) :=
  ⟨h.trans (List.suffix_cons c cs), Nat.lt_succ_of_le h.length_le⟩

/-! ## Reading -/

theorem eq_dot_of_startsNumber {c : Char} {cs : List Char} (h : startsNumber (c :: cs))
    (hc : ¬ c.isDigit) : c = '.' := by
  unfold startsNumber at h
  split at h
  · next heq => exact (List.cons.inj heq).1
  · next heq => exact absurd ((List.cons.inj heq).1 ▸ h) hc
  · next heq => cases heq

theorem readNumber_shorter {c : Char} {cs : List Char} (h : startsNumber (c :: cs)) :
    Shorter (readNumber (c :: cs)).2 (c :: cs) := by
  by_cases hc : c.isDigit
  · have hs : (c :: cs).dropWhile Char.isDigit <:+ cs := by
      rw [List.dropWhile_cons_of_pos hc]
      exact List.dropWhile_suffix _
    unfold readNumber
    split
    · next r hr =>
      rw [hr] at hs
      exact .of_suffix_tail c ((List.dropWhile_suffix _).trans ((List.suffix_cons _ r).trans hs))
    · exact .of_suffix_tail c hs
  · obtain rfl := eq_dot_of_startsNumber h hc
    simp only [readNumber, List.dropWhile_cons_of_neg hc]
    exact .of_suffix_tail '.' (List.dropWhile_suffix _)

theorem text_ne_empty_of_mem_fixed {t : Token} (h : t ∈ Token.fixed) :
    0 < t.text.toList.length := by
  have all : Token.fixed.all fun t => decide (0 < t.text.toList.length) := by decide
  exact of_decide_eq_true (List.all_eq_true.mp all t h)

/-- A mark is read from its text. -/
theorem text_of_readFixed {cs r : List Char} {t : Token} (h : readFixed cs = some (t, r)) :
    t ∈ Token.fixed ∧ t.text.toList ++ r = cs := by
  obtain ⟨u, hmem, hu⟩ := List.exists_of_findSome?_eq_some h
  obtain ⟨_, hr, heq⟩ := Option.map_eq_some_iff.mp hu
  cases heq
  unfold dropText? at hr
  split at hr
  · next hprefix =>
    obtain ⟨s, hs⟩ := List.isPrefixOf_iff_prefix.mp hprefix
    rw [← hs, List.drop_left] at hr
    exact ⟨hmem, by rw [← hs, Option.some.inj hr]⟩
  · cases hr

theorem readFixed_shorter {cs r : List Char} {t : Token} (h : readFixed cs = some (t, r)) :
    Shorter r cs := by
  obtain ⟨ht, rfl⟩ := text_of_readFixed h
  have hpos := text_ne_empty_of_mem_fixed ht
  exact ⟨List.suffix_append _ _, by rw [List.length_append]; omega⟩

theorem readLiteral_shorter {q : Char} {cs r : List Char} {t : Token}
    (h : readLiteral q cs = .ok (t, r)) : r <:+ cs := by
  unfold readLiteral at h
  split at h
  · next heq =>
    cases h
    exact (List.suffix_cons _ _).trans (heq ▸ List.dropWhile_suffix _)
  · cases h

theorem readQualified_suffix (name cs : List Char) : (readQualified name cs).2 <:+ cs := by
  unfold readQualified
  split
  · exact (List.suffix_cons _ _).trans (List.suffix_cons _ _)
  · split
    · exact (List.dropWhile_suffix _).trans ((List.suffix_cons _ _).trans (List.suffix_cons _ _))
    · exact List.suffix_refl _
  · exact List.suffix_refl _

theorem readName_suffix {asOperator : Bool} {name after r : List Char} {t : Token}
    (h : readName asOperator name after = .ok (t, r)) : r <:+ after := by
  simp only [readName] at h
  split at h
  · cases h
    exact List.suffix_refl _
  · split at h
    · split at h
      · cases h
        exact List.suffix_refl _
      · cases h
    · split at h
      · split at h
        · cases h
          exact List.suffix_refl _
        · cases h
      · have hq := readQualified_suffix name after
        rwa [Except.ok.inj h] at hq

theorem readOther_suffix {asOperator : Bool} {c : Char} {cs r : List Char} {t : Token}
    (h : readOther asOperator c cs = .ok (t, r)) : r <:+ cs := by
  unfold readOther at h
  split at h
  · cases h
    exact List.suffix_refl _
  split at h
  · exact readLiteral_shorter h
  split at h
  · cases h
  split at h
  · cases h
  split at h
  · exact (readName_suffix h).trans (List.dropWhile_suffix _)
  · cases h

/-- A token is read from what is behind the white space. -/
theorem scan_shorter_skipWhite {l : Lexer} {t : Token} {r : List Char}
    (h : l.scan = .ok (some (t, r))) : Shorter r (skipWhite l.rest) := by
  unfold scan at h
  split at h
  · cases h
  · next c cs heq =>
    rw [heq]
    split at h
    · next hn =>
      have h' : readNumber (c :: cs) = (t, r) := Option.some.inj (Except.ok.inj h)
      simpa only [h'] using readNumber_shorter hn
    · split at h
      · next found hf =>
        cases h
        exact readFixed_shorter hf
      · split at h
        · cases h
        · split at h
          · next found ho =>
            cases h
            exact .of_suffix_tail c (readOther_suffix ho)
          · cases h

/-- **Reading a token takes text.** -/
theorem scan_shorter {l : Lexer} {t : Token} {r : List Char} (h : l.scan = .ok (some (t, r))) :
    Shorter r l.rest :=
  (scan_shorter_skipWhite h).trans_suffix (List.dropWhile_suffix _)

/-! ## Holding a token -/

/-- A lexer that holds a token holds what it would read. -/
def Faithful (l : Lexer) : Prop :=
  ∀ found, l.held = some found → l.scan = .ok (some found)

theorem faithful_of_none {l : Lexer} (h : l.held = none) : l.Faithful := by
  intro found hf
  rw [h] at hf
  cases hf

theorem faithful_ofString (text : String) : (ofString text).Faithful :=
  faithful_of_none rfl

/-- Holding a token changes nothing about what comes next. -/
theorem Faithful.ahead_eq_scan {l : Lexer} (h : l.Faithful) : l.ahead = l.scan := by
  unfold ahead
  split
  · next found hf => exact (h found hf).symm
  · rfl

theorem next_of_scan {l : Lexer} (h : l.Faithful) {t : Token} {r : List Char}
    (hs : l.scan = .ok (some (t, r))) : l.next = .ok (some t, ⟨r, none, some t⟩) := by
  simp [next, h.ahead_eq_scan, hs, bind, Except.bind]

/-- What has been taken is what would have been read. -/
theorem scan_of_next {l m : Lexer} {t : Token} (hl : l.Faithful)
    (h : l.next = .ok (some t, m)) :
    l.scan = .ok (some (t, m.rest)) ∧ m = ⟨m.rest, none, some t⟩ := by
  unfold Lexer.next at h
  rw [hl.ahead_eq_scan] at h
  rcases hs : l.scan with e | _ | ⟨u, r⟩
  · simp [hs, bind, Except.bind] at h
  · simp [hs, bind, Except.bind] at h
  · simp only [hs, bind, Except.bind, Except.ok.injEq, Prod.mk.injEq, Option.some.injEq] at h
    obtain ⟨rfl, rfl⟩ := h
    exact ⟨rfl, rfl⟩

theorem scan_of_next_none {l m : Lexer} (hl : l.Faithful) (h : l.next = .ok (none, m)) :
    l.scan = .ok none ∧ m = l := by
  unfold Lexer.next at h
  rw [hl.ahead_eq_scan] at h
  rcases hs : l.scan with e | _ | ⟨u, r⟩
  · simp [hs, bind, Except.bind] at h
  · simp only [hs, bind, Except.bind, Except.ok.injEq, Prod.mk.injEq] at h
    exact ⟨rfl, h.2.symm⟩
  · simp [hs, bind, Except.bind] at h

/-- What has been looked at is held. -/
theorem scan_of_peek {l m : Lexer} {seen : Option Token} (hl : l.Faithful)
    (h : l.peek = .ok (seen, m)) :
    ∃ found, l.scan = .ok found ∧ seen = found.map Prod.fst ∧ m = { l with held := found } := by
  unfold Lexer.peek at h
  rw [hl.ahead_eq_scan] at h
  rcases hs : l.scan with e | found
  · simp [hs, bind, Except.bind] at h
  · simp only [hs, bind, Except.bind, Except.ok.injEq, Prod.mk.injEq] at h
    exact ⟨found, rfl, h.1.symm, h.2.symm⟩

theorem peek_of_scan {l : Lexer} (hl : l.Faithful) {found : Option (Token × List Char)}
    (hs : l.scan = .ok found) : l.peek = .ok (found.map Prod.fst, { l with held := found }) := by
  simp [Lexer.peek, hl.ahead_eq_scan, hs, bind, Except.bind]

theorem faithful_hold {l : Lexer} {found : Option (Token × List Char)} (hs : l.scan = .ok found) :
    Faithful { l with held := found } := by
  rintro u rfl
  exact hs

/-- The token that is looked at is the one that is taken next. -/
theorem next_of_peek {l m : Lexer} {t : Token} (hl : l.Faithful) (h : l.peek = .ok (some t, m)) :
    ∃ m', l.next = .ok (some t, m') := by
  obtain ⟨_ | ⟨u, r⟩, hs, hseen, -⟩ := scan_of_peek hl h
  · cases hseen
  · cases hseen
    exact ⟨_, next_of_scan hl hs⟩

/-- The token that is taken can be looked at first. -/
theorem peek_of_next {l m : Lexer} {t : Token} (hl : l.Faithful) (h : l.next = .ok (some t, m)) :
    ∃ l', l.peek = .ok (some t, l') ∧ l'.next = .ok (some t, m) := by
  obtain ⟨hs, hm⟩ := scan_of_next hl h
  rw [hm]
  exact ⟨_, peek_of_scan hl hs, next_of_scan (faithful_hold hs) hs⟩

/-- Where reading fails, so does taking and looking. -/
theorem next_of_scan_error {l : Lexer} (hl : l.Faithful) {e : Fault} (hs : l.scan = .error e) :
    l.next = .error e := by
  simp [Lexer.next, hl.ahead_eq_scan, hs, bind, Except.bind]

theorem peek_of_scan_error {l : Lexer} (hl : l.Faithful) {e : Fault} (hs : l.scan = .error e) :
    l.peek = .error e := by
  simp [Lexer.peek, hl.ahead_eq_scan, hs, bind, Except.bind]

theorem Faithful.next {l l' : Lexer} {t : Option Token} (h : l.Faithful)
    (hn : l.next = .ok (t, l')) : l'.Faithful := by
  unfold Lexer.next at hn
  rcases hs : l.ahead with e | ⟨_ | ⟨u, r⟩⟩
  · simp [hs, bind, Except.bind] at hn
  · simp only [hs, bind, Except.bind, Except.ok.injEq, Prod.mk.injEq] at hn
    exact hn.2 ▸ h
  · simp only [hs, bind, Except.bind, Except.ok.injEq, Prod.mk.injEq] at hn
    exact faithful_of_none (hn.2 ▸ rfl)

theorem Faithful.peek {l l' : Lexer} {t : Option Token} (h : l.Faithful)
    (hp : l.peek = .ok (t, l')) : l'.Faithful := by
  unfold Lexer.peek at hp
  rcases hs : l.ahead with e | found
  · simp [hs, bind, Except.bind] at hp
  · simp only [hs, bind, Except.bind, Except.ok.injEq, Prod.mk.injEq] at hp
    obtain ⟨-, rfl⟩ := hp
    intro u hu
    rw [h.ahead_eq_scan] at hs
    rw [show ({ l with held := found } : Lexer).scan = l.scan from rfl, hs]
    exact congrArg _ hu

/-- Taking a token leaves a proper suffix of the text. -/
theorem next_shorter {l l' : Lexer} {t : Token} (h : l.Faithful)
    (hn : l.next = .ok (some t, l')) : Shorter l'.rest l.rest := by
  unfold next at hn
  rcases hs : l.ahead with e | ⟨_ | ⟨u, r⟩⟩
  · simp [hs, bind, Except.bind] at hn
  · simp [hs, bind, Except.bind] at hn
  · simp only [hs, bind, Except.bind, Except.ok.injEq, Prod.mk.injEq] at hn
    obtain ⟨-, rfl⟩ := hn
    exact scan_shorter (h.ahead_eq_scan ▸ hs)

/-- Looking at a token leaves the text as it is. -/
theorem peek_rest {l l' : Lexer} {t : Option Token} (hp : l.peek = .ok (t, l')) :
    l'.rest = l.rest := by
  unfold peek at hp
  rcases hs : l.ahead with e | found
  · simp [hs, bind, Except.bind] at hp
  · simp only [hs, bind, Except.bind, Except.ok.injEq, Prod.mk.injEq] at hp
    exact hp.2 ▸ rfl

/-- Taking a token that has to be there leaves a proper suffix of the text. -/
theorem expect_shorter {l l' : Lexer} {e : Expected} {t : Token} (h : l.Faithful)
    (he : l.expect e = .ok (t, l')) : Shorter l'.rest l.rest :=
  next_shorter h (expect_ok_iff.mp he)

end TreePointer.Lexer
