import TreePointer.Proofs.Token.Parted

/-!
# Tokens that are written down are read again

The tokens of a text can be written down one after the other, with a space between them, and this
gives a text with the same tokens. A space ends every token that is read before it. What a name or a
star is read as depends on the token before it, on a parenthesis behind it and on a double colon
behind it; each of these is a token of its own, and is there again.

* `HasTokens`: the tokens up to the end of a text; `tokens_eq_iff`: `tokens` lists them.
* `SameAhead`: texts that are the same to a name before them, as texts with the same tokens are.
* `scan_respelled`: one token that is written down is read again.
* `HasTokens.respelled`, `tokens_respelled`: so are all tokens of a text.
-/

namespace TreePointer.Lexer

variable {l l' : Lexer} {t : Token} {ts : List Token} {p : Option Token} {c : Char}
  {cs r r' : List Char}

/-! ## The tokens of a text -/

/-- The lexer has these tokens before it, and behind them the end of its text. -/
inductive HasTokens : Lexer → List Token → Prop
  | done {l : Lexer} (h : l.scan = .ok none) : HasTokens l []
  | take {l : Lexer} {t : Token} {r : List Char} {ts : List Token}
      (h : l.scan = .ok (some (t, r))) (hr : HasTokens ⟨r, none, some t⟩ ts) : HasTokens l (t :: ts)

theorem collect_eq_iff {n : Nat} (hl : l.Faithful) (hn : l.rest.length < n) :
    collect n l = (ts, none) ↔ l.HasTokens ts := by
  induction n generalizing l ts with
  | zero => exact absurd hn (Nat.not_lt_zero _)
  | succ n ih =>
    rw [collect]
    rcases hs : l.scan with e | _ | ⟨t, r⟩
    · rw [next_of_scan_error hl hs]
      constructor
      · intro h
        cases h
      · rintro (h | ⟨h, -⟩) <;> rw [hs] at h <;> cases h
    · rw [At.next_none ⟨rfl, hl⟩ hs]
      constructor
      · intro h
        cases h
        exact .done hs
      · rintro (h | ⟨h, -⟩)
        · rfl
        · rw [hs] at h
          cases h
    · rw [next_of_scan hl hs]
      have hlen : r.length < n := Nat.lt_of_lt_of_le (scan_shorter hs).2 (Nat.le_of_lt_succ hn)
      have hrest :
          ∀ us, collect n ⟨r, none, some t⟩ = (us, none) ↔ HasTokens ⟨r, none, some t⟩ us :=
        fun us => ih (faithful_of_none rfl) hlen
      constructor
      · intro h
        simp only [Prod.mk.injEq] at h
        obtain ⟨rfl, hnone⟩ := h
        exact .take hs ((hrest _).mp (Prod.ext rfl hnone))
      · rintro (h | ⟨h, hr⟩)
        · rw [hs] at h
          cases h
        · rw [hs] at h
          cases h
          simp only [(hrest _).mpr hr]

/-- **The tokens of a text** that is read to its end. -/
theorem tokens_eq_iff {text : String} :
    tokens text = (ts, none) ↔ (ofString text).HasTokens ts :=
  collect_eq_iff (faithful_ofString text) (Nat.lt_succ_self _)

/-- A space before the first token is passed over. -/
theorem HasTokens.space (h : HasTokens ⟨cs, none, p⟩ ts) : HasTokens ⟨' ' :: cs, none, p⟩ ts := by
  cases h with
  | done h => exact .done (scan_space rfl h)
  | take h hr => exact .take (scan_space rfl h) hr

/-! ## What a name depends on -/

theorem readFixed_ne_none {u : Token} (hu : u ∈ Token.fixed)
    (h : u.text.toList.isPrefixOf cs = true) : readFixed cs ≠ none := by
  intro hnone
  have hdrop := List.findSome?_eq_none_iff.mp hnone u hu
  rw [dropText?, if_pos h, Option.map_some] at hdrop
  cases hdrop

/-- **A mark that no other one begins like** is the first token exactly if the text begins with
it. -/
theorem scan_mark_iff {u : Token} {ds : List Char} (hu : u ∈ Token.fixed)
    (hword : isWord u = false) (htext : u.text.toList = c :: ds)
    (halone : ∀ v ∈ Token.fixed, v.text.toList.head? = some c → v = u)
    (hdigit : ∀ cs, startsNumber (c :: cs) = false) (h : l.scan = .ok (some (t, r))) :
    (c :: ds).isPrefixOf (skipWhite l.rest) = true ↔ t = u := by
  obtain ⟨d, cs, hcs, hread⟩ := scan_cases h
  have hfirst : (c :: ds).isPrefixOf (skipWhite l.rest) = true → d = c := by
    rw [hcs, List.isPrefixOf, Bool.and_eq_true, beq_iff_eq]
    exact fun h => h.1.symm
  rcases hread with ⟨hstart, hnumber⟩ | hfixed | ⟨hfixed, hother⟩
  · obtain ⟨x, hx⟩ := readNumber_number (d :: cs)
    obtain rfl : t = .number x := by rw [← hx, hnumber]
    refine iff_of_false (fun hprefix => ?_) ?_
    · rw [hfirst hprefix, hdigit] at hstart
      cases hstart
    · rintro rfl
      simp [Token.fixed] at hu
  · obtain ⟨hmem, hchars⟩ := text_of_readFixed hfixed
    obtain ⟨e, es, he⟩ := List.exists_cons_of_length_pos (text_ne_empty_of_mem_fixed hmem)
    constructor
    · intro hprefix
      rw [he, List.cons_append, List.cons.injEq] at hchars
      exact halone t hmem (by rw [he, List.head?_cons, hchars.1, hfirst hprefix])
    · rintro rfl
      rw [hcs, ← hchars, ← htext]
      exact List.isPrefixOf_iff_prefix.mpr (List.prefix_append _ _)
  · refine iff_of_false (fun hprefix => ?_) ?_
    · rw [hcs, ← htext] at hprefix
      exact readFixed_ne_none hu hprefix hfixed
    · rintro rfl
      rw [isWord_of_readOther hother] at hword
      cases hword

theorem scan_paren_iff (h : l.scan = .ok (some (t, r))) :
    (skipWhite l.rest).head? = some '(' ↔ t = .fence .leftParen := by
  have hmark : ['('].isPrefixOf (skipWhite l.rest) = true ↔ t = .fence .leftParen :=
    scan_mark_iff (by decide) rfl (by decide) (by decide) (fun _ => rfl) h
  rw [← hmark]
  cases skipWhite l.rest with
  | nil => simp
  | cons d ds =>
    rw [List.head?_cons, Option.some.injEq, List.isPrefixOf, List.isPrefixOf, Bool.and_true,
      beq_iff_eq, eq_comm]

theorem scan_colons_iff (h : l.scan = .ok (some (t, r))) :
    [':', ':'].isPrefixOf (skipWhite l.rest) = true ↔ t = .colonColon :=
  scan_mark_iff (by decide) rfl (by decide) (by decide) (fun _ => rfl) h

/-- Two texts that are the same to a name before them. -/
structure SameAhead (r r' : List Char) : Prop where
  paren : (skipWhite r).head? = some '(' ↔ (skipWhite r').head? = some '('
  colons : [':', ':'].isPrefixOf (skipWhite r) = [':', ':'].isPrefixOf (skipWhite r')

/-- **Texts with the same tokens** are the same to a name before them. -/
theorem HasTokens.sameAhead (h : HasTokens ⟨r, none, p⟩ ts) (h' : HasTokens ⟨r', none, p⟩ ts) :
    SameAhead r r' := by
  cases h with
  | done h =>
    cases h' with
    | done h' =>
      have hr : skipWhite r = [] := skipWhite_of_scan_none h
      have hr' : skipWhite r' = [] := skipWhite_of_scan_none h'
      exact ⟨by rw [hr, hr'], by rw [hr, hr']⟩
  | take h =>
    cases h' with
    | take h' =>
      exact ⟨(scan_paren_iff h).trans (scan_paren_iff h').symm,
        Bool.eq_iff_iff.mpr ((scan_colons_iff h).trans (scan_colons_iff h').symm)⟩

/-! ## One token -/

/-- The text is at its end, or goes on with a space. -/
def Spaced : List Char → Prop
  | [] => True
  | c :: _ => c = ' '

/-- A space ends what a space cannot be part of. -/
theorem Spaced.head {q : Char → Bool} (hr : Spaced r) (hq : q ' ' = false) :
    ∀ c ∈ r.head?, q c = false := by
  intro c hc
  cases r with
  | nil => cases hc
  | cons d r =>
    obtain rfl : d = ' ' := hr
    cases hc
    exact hq

/-- A mark is read before a space. -/
theorem scan_fixed_spaced (ht : t ∈ Token.fixed) (hr : Spaced r)
    (h : l.rest = t.text.toList ++ r) : l.scan = .ok (some (t, r)) := by
  -- the rest only has to be known as far as its first character
  rw [scan, h]
  simp only [Token.fixed, List.mem_cons, List.not_mem_nil, or_false] at ht
  cases r with
  | nil =>
    rcases ht with rfl | rfl | rfl | rfl | rfl | rfl | rfl | rfl | rfl | rfl | rfl | rfl | rfl |
      rfl | rfl | rfl | rfl | rfl | rfl | rfl <;> rfl
  | cons c r =>
    obtain rfl : c = ' ' := hr
    rcases ht with rfl | rfl | rfl | rfl | rfl | rfl | rfl | rfl | rfl | rfl | rfl | rfl | rfl |
      rfl | rfl | rfl | rfl | rfl | rfl | rfl <;> rfl

/-- Characters of one kind end where a character of another kind stands. -/
theorem takeWhile_dropWhile_append {q : Char → Bool} {xs ys : List Char} (hxs : xs.all q = true)
    (hys : ∀ c ∈ ys.head?, q c = false) :
    (xs ++ ys).takeWhile q = xs ∧ (xs ++ ys).dropWhile q = ys := by
  rw [List.all_eq_true] at hxs
  rw [List.takeWhile_append_of_pos hxs, List.dropWhile_append_of_pos hxs]
  cases ys with
  | nil => exact ⟨List.append_nil xs, rfl⟩
  | cons c ys =>
    have hc : ¬ q c = true := by simp [hys c rfl]
    rw [List.takeWhile_cons_of_neg hc, List.dropWhile_cons_of_neg hc, List.append_nil]
    exact ⟨rfl, rfl⟩

theorem readQualified_spaced (first : List Char) (hr : Spaced r) :
    readQualified first r = (.nameTest (String.ofList first), r) := by
  cases r with
  | nil => rfl
  | cons c r =>
    obtain rfl : c = ' ' := hr
    exact readQualified_of_ne (by decide) r

/-- A name test is one name, or goes on with a colon, and then it is read again before a space. -/
theorem readQualified_respelled {first after : List Char} (h : readQualified first after = (t, r))
    (hr' : Spaced r') :
    (t = .nameTest (String.ofList first) ∧ r = after) ∨
      ∃ c more, c ≠ ':' ∧ t.text.toList = first ++ ':' :: c :: more ∧
        readQualified first (':' :: c :: (more ++ r')) = (t, r') := by
  unfold readQualified at h
  split at h
  · cases h
    exact .inr ⟨'*', [], by decide, String.toList_ofList, rfl⟩
  · next c cs hstar =>
    split at h
    · next hc =>
      cases h
      refine .inr ⟨c, cs.takeWhile isNameChar, ne_of_isNameStart hc (by decide),
        String.toList_ofList, ?_⟩
      have hall : (cs.takeWhile isNameChar).all isNameChar = true := List.all_takeWhile
      obtain ⟨htake, hdrop⟩ := takeWhile_dropWhile_append hall (hr'.head (by decide))
      rw [readQualified, if_pos hc, htake, hdrop]
      exact hstar
    · cases h
      exact .inl ⟨rfl, rfl⟩
  · cases h
    exact .inl ⟨rfl, rfl⟩

/-- **A name that is written down** before a space is read again. What a qualified name goes on with
ends the name it begins with. -/
theorem readName_respelled {asOperator : Bool} {first after : List Char}
    (h : readName asOperator first after = .ok (t, r)) (hahead : SameAhead r r') (hr' : Spaced r') :
    ∃ more, t.text.toList = first ++ more ∧ (∀ c ∈ (more ++ r').head?, isNameChar c = false) ∧
      readName asOperator first (more ++ r') = .ok (t, r') := by
  have hend : ∀ c ∈ ([] ++ r').head?, isNameChar c = false := hr'.head (by decide)
  simp only [readName] at h
  split at h
  · next hparen =>
    cases h
    refine ⟨[], ?_, hend, ?_⟩
    · split <;> rw [Token.text, String.toList_ofList, List.append_nil]
    · rw [List.nil_append, readName, if_pos (hahead.paren.mp hparen)]
  next hparen =>
  split at h
  · next hop =>
    split at h
    · next o hfind =>
      cases h
      have hname : o.text = String.ofList first := by simpa using List.find?_some hfind
      refine ⟨[], ?_, hend, ?_⟩
      · rw [Token.text, hname, String.toList_ofList, List.append_nil]
      · simp only [List.nil_append, readName, if_neg (mt hahead.paren.mpr hparen), if_pos hop,
          hfind]
    · cases h
  next hop =>
  split at h
  · next hcolons =>
    split at h
    · next haxis =>
      cases h
      refine ⟨[], ?_, hend, ?_⟩
      · rw [Token.text, String.toList_ofList, List.append_nil]
      · simp only [List.nil_append, readName, if_neg (mt hahead.paren.mpr hparen), if_neg hop,
          if_pos (hahead.colons ▸ hcolons), if_pos haxis]
    · cases h
  next hcolons =>
  rcases readQualified_respelled (Except.ok.inj h) hr' with
    ⟨rfl, rfl⟩ | ⟨c, more, hc, htext, hread⟩
  · refine ⟨[], ?_, hend, ?_⟩
    · rw [Token.text, String.toList_ofList, List.append_nil]
    · simp only [List.nil_append, readName, if_neg (mt hahead.paren.mpr hparen), if_neg hop,
        if_neg (hahead.colons ▸ hcolons), readQualified_spaced first hr']
  · -- the colon behind the first name is no white space, so it is all the name looks at
    have hskip : skipWhite (':' :: c :: (more ++ r')) = ':' :: c :: (more ++ r') := rfl
    have hparen' : ¬ (skipWhite (':' :: c :: (more ++ r'))).head? = some '(' := by
      rw [hskip, List.head?_cons, Option.some.injEq]
      decide
    have hcolons' : ¬ [':', ':'].isPrefixOf (skipWhite (':' :: c :: (more ++ r'))) = true := by
      rw [hskip]
      simp [List.isPrefixOf, Ne.symm hc]
    refine ⟨':' :: c :: more, htext, fun d hd => ?_, ?_⟩
    · cases hd
      decide
    · simp only [List.cons_append, readName, if_neg hparen', if_neg hop, if_neg hcolons', hread]

/-- A number that is written down as a whole number below the bound, and a literal that is written
down between double quotes, are read again. -/
def IsWritten : Token → Prop
  | .number x => ∃ n < Binary64.exactBound, x = .ofNat n
  | .literal s => '"' ∉ s.toList
  | _ => True

/-- **A token that is written down** before a space is read again. -/
theorem scan_respelled (h : l.scan = .ok (some (t, r))) (ht : IsWritten t) (hahead : SameAhead r r')
    (hr' : Spaced r') (hop : l'.atOperator = l.atOperator) (hrest : l'.rest = t.text.toList ++ r') :
    l'.scan = .ok (some (t, r')) := by
  obtain ⟨c, cs, -, ⟨-, hnumber⟩ | hfixed | ⟨-, hother⟩⟩ := scan_cases h
  · obtain ⟨x, hx⟩ := readNumber_number (c :: cs)
    obtain rfl : t = .number x := by rw [← hx, hnumber]
    obtain ⟨n, hn, rfl⟩ := ht
    rw [Token.text, Binary64.text_ofNat hn, toList_toString] at hrest
    refine scan_number hn (fun d hd => ⟨hr'.head (by decide) d hd, ?_⟩) hrest
    exact of_decide_eq_false (hr'.head (q := fun d => decide (d = '.')) (by decide) d hd)
  · exact scan_fixed_spaced (text_of_readFixed hfixed).1 hr' hrest
  rcases readOther_cases hother with ⟨-, htoken, -⟩ | ⟨-, text, rfl, -⟩ | ⟨hc, hname⟩
  · have hstar : t.text.toList = ['*'] := by
      rw [htoken]
      split <;> rfl
    rw [hstar, List.singleton_append] at hrest
    refine scan_other (by decide) rfl rfl (by decide) hrest ?_
    rw [readOther, if_pos rfl, hop, htoken]
  · rw [Token.text, String.toList_append, String.toList_append] at hrest
    exact scan_literal (.inl rfl) ht (by simpa using hrest)
  · obtain ⟨more, htext, hends, hread⟩ := readName_respelled hname hahead hr'
    obtain ⟨htake, hdrop⟩ := takeWhile_dropWhile_append List.all_takeWhile hends
    rw [htext, List.cons_append, List.cons_append, List.append_assoc] at hrest
    exact scan_name hc hrest (by rw [htake, hdrop, hop, hread])

/-! ## All tokens -/

/-- The tokens written down with spaces between them. -/
def spelledOut (ts : List Token) : List Char :=
  [' '].intercalate (ts.map fun t => t.text.toList)

theorem toList_intercalate_text (ts : List Token) :
    (" ".intercalate (ts.map Token.text)).toList = spelledOut ts := by
  rw [String.toList_intercalate, spelledOut, List.map_map]
  rfl

theorem spelledOut_cons_cons (t u : Token) (ts : List Token) :
    spelledOut (t :: u :: ts) = t.text.toList ++ ' ' :: spelledOut (u :: ts) := by
  rw [spelledOut, List.map_cons, List.map_cons, List.intercalate_cons_cons, List.append_assoc]
  rfl

/-- **The tokens of a text that are written down** are read again. -/
theorem HasTokens.respelled (h : HasTokens l ts) (hts : ∀ t ∈ ts, IsWritten t)
    (hprevious : l'.previous = l.previous) (hrest : l'.rest = spelledOut ts) : HasTokens l' ts := by
  induction h generalizing l' with
  | done => exact .done (scan_nil hrest)
  | @take l t r ts h hr ih =>
    have hagain : HasTokens ⟨spelledOut ts, none, some t⟩ ts :=
      ih (fun u hu => hts u (List.mem_cons_of_mem t hu)) rfl rfl
    obtain ⟨r', hr', hspaced, hspelled⟩ : ∃ r', HasTokens ⟨r', none, some t⟩ ts ∧ Spaced r' ∧
        spelledOut (t :: ts) = t.text.toList ++ r' := by
      cases ts with
      | nil => exact ⟨[], hagain, trivial, by simp [spelledOut]⟩
      | cons u ts =>
        exact ⟨' ' :: spelledOut (u :: ts), hagain.space, rfl, spelledOut_cons_cons t u ts⟩
    have hop : l'.atOperator = l.atOperator := congrArg (Option.any Token.forcesOperator) hprevious
    exact .take (scan_respelled h (hts t List.mem_cons_self) (hr.sameAhead hr') hspaced hop
      (hrest.trans hspelled)) hr'

/-- **Tokens that are written down are read again.** If a text is read to its end, no literal in it
has a double quote, and every number is a whole number below the bound, then the texts of its tokens
with spaces between them are read as the same tokens. -/
theorem tokens_respelled {text : String} {ts : List Token} (h : tokens text = (ts, none))
    (hliteral : ∀ s, Token.literal s ∈ ts → '"' ∉ s.toList)
    (hnumber : ∀ x, Token.number x ∈ ts → ∃ n < Binary64.exactBound, x = .ofNat n) :
    tokens (" ".intercalate (ts.map Token.text)) = (ts, none) := by
  rw [tokens_eq_iff] at h ⊢
  refine h.respelled (fun t ht => ?_) rfl (toList_intercalate_text ts)
  unfold IsWritten
  split
  · exact hnumber _ ht
  · exact hliteral _ ht
  · trivial

/-- Here the star and the name `and` are operators in one place and name tests in another. -/
theorem tokens_respelled_path :
    let ts : List Token := [.axisName "child", .colonColon, .nameTest "p:and", .fence .leftBracket,
      .number (.ofNat 2), .operator .multiply, .functionName "id", .fence .leftParen, .literal "x",
      .fence .rightParen, .operator .and, .nameTest "*", .fence .rightBracket]
    tokens "child::p:and[2*id('x')and*]" = (ts, none) ∧
      tokens "child :: p:and [ 2 * id ( \"x\" ) and * ]" = (ts, none) := by
  intro ts
  have hread : tokens "child::p:and[2*id('x')and*]" = (ts, none) := by decide +kernel
  have hspelled : " ".intercalate (ts.map Token.text)
      = "child :: p:and [ 2 * id ( \"x\" ) and * ]" := by decide +kernel
  refine ⟨hread, hspelled ▸ tokens_respelled hread ?_ ?_⟩
  · intro s hs
    obtain rfl : s = "x" := by simpa [ts] using hs
    decide
  · intro x hx
    obtain rfl : x = .ofNat 2 := by simpa [ts] using hx
    exact ⟨2, by decide, rfl⟩

end TreePointer.Lexer
