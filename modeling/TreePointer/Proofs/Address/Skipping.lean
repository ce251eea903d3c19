import TreePointer.Proofs.Address.Reading

/-!
# Texts that are passed over

Where `range-to` starts from nothing, its argument is not evaluated but passed over, token by token,
to the parenthesis that closes it. The texts of which addresses are made are read by one token after
the other without a fault, and their parentheses are balanced, so that they are passed over as they
stand.

* `Passes`: the reading goes on from one lexer as from another one.
* `Skips`: a text is passed over.
* `skips_path`, `skips_call`, `skips_lengthChars`: the kinds of texts.
* `Skips.rangesTo`: `range-to` from nothing leads nowhere.
-/

namespace TreePointer.Expression

open Lexer

/-! ## Passing over tokens -/

/-- What is passed over from the first lexer on is passed over from the second on, by a number of
steps that is enough again. -/
def Passes (l l' : Lexer) : Prop :=
  ∀ depth fuel, l.rest.length ≤ fuel → ∃ fuel', l'.rest.length ≤ fuel' ∧
    skipArguments (depth + 1) fuel l = skipArguments (depth + 1) fuel' l'

variable {l l' l₁ l₂ : Lexer} {t : Token} {r : List Char}

theorem Passes.trans (h : Passes l l₁) (h' : Passes l₁ l₂) : Passes l l₂ := by
  intro depth fuel hfuel
  obtain ⟨fuel₁, hfuel₁, e⟩ := h depth fuel hfuel
  obtain ⟨fuel₂, hfuel₂, e'⟩ := h' depth fuel₁ hfuel₁
  exact ⟨fuel₂, hfuel₂, e.trans e'⟩

/-- How many parentheses are open behind a token, of which `depth + 1` are open before it. -/
def depthAfter (depth : Nat) (t : Token) : Nat :=
  if t = .fence .leftParen then depth + 2 else if t = .fence .rightParen then depth else depth + 1

theorem depthAfter_add (depth k : Nat) (t : Token) :
    depthAfter (depth + k) t = depth + depthAfter k t := by
  unfold depthAfter
  split
  · rfl
  · split <;> rfl

theorem depthAfter_of_ne (depth : Nat) (hopen : t ≠ .fence .leftParen)
    (hclose : t ≠ .fence .rightParen) : depthAfter depth t = depth + 1 := by
  rw [depthAfter, if_neg hopen, if_neg hclose]

theorem skipArguments_zero (fuel : Nat) (l : Lexer) : skipArguments 0 fuel l = .ok l := by
  rw [skipArguments]

theorem skipArguments_of_expect (h : l.expect (.fence .rightParen) = .ok (t, l'))
    (depth fuel : Nat) :
    skipArguments (depth + 1) (fuel + 1) l = skipArguments (depthAfter depth t) fuel l' := by
  simp only [skipArguments, h, bind, Except.bind]
  split
  · rfl
  · rfl
  · next hopen hclose => rw [depthAfter_of_ne depth hopen hclose]

/-- One token is passed over, in as many parentheses as it leaves. -/
theorem skipArguments_token {cs : List Char} (hat : l.At cs) (hs : l.scan = .ok (some (t, r)))
    (depth : Nat) {fuel : Nat} (hfuel : l.rest.length ≤ fuel) :
    ∃ fuel', r.length ≤ fuel' ∧ skipArguments (depth + 1) fuel l
      = skipArguments (depthAfter depth t) fuel' ⟨r, none, some t⟩ := by
  have hshort := (scan_shorter hs).2
  cases fuel with
  | zero => omega
  | succ fuel => exact ⟨fuel, by omega, skipArguments_of_expect (hat.expect hs _) depth fuel⟩

/-- A token that is no parenthesis. -/
theorem Passes.token {cs : List Char} (hat : l.At cs) (hs : l.scan = .ok (some (t, r)))
    (hopen : t ≠ .fence .leftParen) (hclose : t ≠ .fence .rightParen) :
    Passes l ⟨r, none, some t⟩ := by
  intro depth fuel hfuel
  obtain ⟨fuel', hfuel', e⟩ := skipArguments_token hat hs depth hfuel
  rw [depthAfter_of_ne depth hopen hclose] at e
  exact ⟨fuel', hfuel', e⟩

/-- What stands in parentheses. -/
theorem Passes.parens {inner cs ds es : List Char} (hat : l.At ds)
    (hs : l.scan = .ok (some (.fence .leftParen, inner))) (hat' : l'.At es)
    (hs' : l'.scan = .ok (some (.fence .rightParen, cs)))
    (h : Passes ⟨inner, none, some (.fence .leftParen)⟩ l') :
    Passes l ⟨cs, none, some (.fence .rightParen)⟩ := by
  intro depth fuel hfuel
  obtain ⟨fuel₁, hfuel₁, hopen⟩ := skipArguments_token hat hs depth hfuel
  obtain ⟨fuel₂, hfuel₂, hinner⟩ := h (depth + 1) fuel₁ hfuel₁
  obtain ⟨fuel₃, hfuel₃, hclose⟩ := skipArguments_token hat' hs' (depth + 1) hfuel₂
  exact ⟨fuel₃, hfuel₃, hopen.trans (hinner.trans hclose)⟩

/-! ## Passing over texts -/

/-- The text is passed over wherever it stands, unless a number at its end could go on. -/
def Skips (text : List Char) : Prop :=
  ∀ (l : Lexer) (r : List Char), l.At (text ++ r) → EndsNumber r → ∃ l', l'.At r ∧ Passes l l'

theorem skips_nil : Skips [] := fun l _ hat _ => ⟨l, hat, fun _ fuel hfuel => ⟨fuel, hfuel, rfl⟩⟩

theorem Skips.append {text more : List Char} (h : Skips text) (h' : Skips more)
    (hend : ∀ r, EndsNumber r → EndsNumber (more ++ r)) : Skips (text ++ more) := by
  intro l r hat hr
  rw [List.append_assoc] at hat
  obtain ⟨l₁, hat₁, hpasses⟩ := h l _ hat (hend r hr)
  obtain ⟨l₂, hat₂, hpasses'⟩ := h' l₁ r hat₁ hr
  exact ⟨l₂, hat₂, hpasses.trans hpasses'⟩

/-- A slash, a tag and a number in brackets. -/
theorem PathStep.Legible.skips {s : PathStep} (h : s.Legible) : Skips ('/' :: s.text.toList) := by
  intro l r hat _
  obtain ⟨c, cs, hhead, hc⟩ := h.exists_head
  have hslash : l.scan = .ok (some (.operator .slash, s.text.toList ++ r)) := by
    have hrest := hat.rest_eq
    rw [List.cons_append, hhead, List.cons_append] at hrest
    rw [Lexer.scan_slash hc hrest, hhead, List.cons_append]
  have htag := h.scan (l := ⟨s.text.toList ++ r, none, some (.operator .slash)⟩) rfl rfl
  have hopen : Lexer.scan ⟨'[' :: (Nat.toDigits 10 s.number ++ ']' :: r), none,
      some (.nameTest s.tag)⟩ = .ok _ :=
    scan_punctuation (t := .fence .leftBracket) (by decide) rfl
  have hnumber : Lexer.scan ⟨Nat.toDigits 10 s.number ++ ']' :: r, none,
      some (.fence .leftBracket)⟩ = .ok _ :=
    scan_number h.bounded (endsNumber_of_not (c := ']') (by decide) (by decide) r) rfl
  have hclose : Lexer.scan ⟨']' :: r, none, some (.number (.ofNat s.number))⟩ = .ok _ :=
    scan_punctuation (t := .fence .rightBracket) (by decide) rfl
  refine ⟨_, at_of_rest r (some (.fence .rightBracket)), ?_⟩
  have hpasses := (Passes.token hat hslash (by decide) (by decide)).trans
    (.token (at_of_rest _ _) htag nofun nofun)
  exact ((hpasses.trans (.token (at_of_rest _ _) hopen (by decide) (by decide))).trans
    (.token (at_of_rest _ _) hnumber nofun nofun)).trans
    (.token (at_of_rest _ _) hclose (by decide) (by decide))

theorem skips_path {steps : List PathStep} (h : ∀ s ∈ steps, s.Legible) :
    Skips (pathChars steps) := by
  induction steps with
  | nil => exact skips_nil
  | cons s steps ih =>
    rw [pathChars_cons]
    have hsteps := ih fun s' hs' => h s' (List.mem_cons_of_mem s hs')
    refine (h s List.mem_cons_self).skips.append hsteps fun r hr => ?_
    cases steps with
    | nil => exact hr
    | cons next steps =>
      rw [pathChars_cons]
      exact endsNumber_of_not (by decide) (by decide) _

/-- A call of a function. -/
theorem skips_call {name : String} {inner : List Char} (hname : isFunctionName name = true)
    (h : Skips inner) : Skips (name.toList ++ '(' :: (inner ++ [')'])) := by
  intro l r hat _
  have hrest : name.toList ++ '(' :: (inner ++ [')']) ++ r
      = name.toList ++ '(' :: (inner ++ ')' :: r) := by
    simp only [List.append_assoc, List.cons_append, List.nil_append]
  rw [hrest] at hat
  have hs := scan_function hname hat.rest_eq
  obtain ⟨l₁, hat₁, hinner⟩ := h _ (')' :: r) (at_of_rest _ (some (.fence .leftParen)))
    (endsNumber_of_not (by decide) (by decide) r)
  exact ⟨_, at_of_rest r _, (Passes.token hat hs nofun nofun).trans
    (.parens (at_of_rest _ _) (scan_punctuation (by decide) rfl) hat₁
      (scan_punctuation (by decide) hat₁.rest_eq) hinner)⟩

/-- The call of `id`. -/
theorem skips_id {q : Char} {id : String} (hq : q = '"' ∨ q = '\'') (hid : q ∉ id.toList) :
    Skips ("id".toList ++ idArguments q id) := by
  have hliteral : Skips (q :: (id.toList ++ [q])) := by
    intro l r hat _
    have hrest : q :: (id.toList ++ [q]) ++ r = q :: (id.toList ++ q :: r) := by
      simp only [List.cons_append, List.append_assoc, List.nil_append]
    rw [hrest] at hat
    exact ⟨_, at_of_rest r _, .token hat (scan_literal hq hid hat.rest_eq) nofun nofun⟩
  have harguments : idArguments q id = '(' :: (q :: (id.toList ++ [q]) ++ [')']) := by
    simp only [idArguments, List.cons_append, List.append_assoc, List.nil_append]
  rw [harguments]
  exact skips_call (by decide) hliteral

/-- The arguments of `string-range` after the location. -/
theorem skips_lengthChars {start length : Nat} (hstart : start < Binary64.exactBound)
    (hlength : length < Binary64.exactBound) : Skips (lengthChars start length) := by
  intro l r hat hr
  have hrest : lengthChars start length ++ r
      = ',' :: ' ' :: '"' :: '"' :: ',' :: ' ' :: (Nat.toDigits 10 start ++ ',' :: ' ' ::
        (Nat.toDigits 10 length ++ r)) := by
    simp only [lengthChars, List.cons_append, List.append_assoc]
  rw [hrest] at hat
  have hcomma : ∀ cs previous, Lexer.scan ⟨',' :: cs, none, previous⟩ = .ok (some (.comma, cs)) :=
    fun cs previous => scan_punctuation (by decide) rfl
  have hpassesComma : ∀ cs previous,
      Passes ⟨',' :: cs, none, previous⟩ ⟨cs, none, some .comma⟩ := fun cs previous =>
    .token (at_of_rest _ previous) (hcomma cs previous) (by decide) (by decide)
  have hfirst := Passes.token hat (scan_punctuation (t := .comma) (by decide) hat.rest_eq)
    (by decide) (by decide)
  have hsearch := Passes.token (at_of_rest (' ' :: '"' :: '"' :: ',' :: ' ' ::
      (Nat.toDigits 10 start ++ ',' :: ' ' :: (Nat.toDigits 10 length ++ r))) (some .comma))
    (scan_space rfl (scan_literal (Or.inl rfl) (show '"' ∉ "".toList by decide) rfl)) (by simp)
    (by simp)
  have hnumber := Passes.token (at_of_rest (' ' :: (Nat.toDigits 10 start ++ ',' :: ' ' ::
      (Nat.toDigits 10 length ++ r))) (some .comma))
    (scan_spaced_number hstart (endsNumber_of_not (c := ',') (by decide) (by decide) _) rfl)
    (by simp) (by simp)
  have hnumber' := Passes.token (at_of_rest (' ' :: (Nat.toDigits 10 length ++ r)) (some .comma))
    (scan_spaced_number hlength hr rfl) (by simp) (by simp)
  exact ⟨_, at_of_rest r _, ((((hfirst.trans hsearch).trans (hpassesComma _ _)).trans
    hnumber).trans (hpassesComma _ _)).trans hnumber'⟩

/-- The step `range-to`, with its slash. -/
theorem skips_rangeTo {target : List Char} (h : Skips target) : Skips (rangeToChars target) := by
  intro l r hat hr
  have hslash := scan_slash (c := 'r') (by decide) hat.rest_eq
  have hname : isFunctionName "range-to" = true := by decide
  obtain ⟨l', hat', hcall⟩ := skips_call hname h ⟨_, none, some (.operator .slash)⟩ r
    (at_of_rest _ _) hr
  exact ⟨l', hat', (Passes.token hat hslash (by decide) (by decide)).trans hcall⟩

/-- **From nothing** `range-to` leads nowhere, past a target that can be passed over. -/
theorem Skips.rangesTo {target : List Char} (h : Skips target) (f : Forest) (d : Document) :
    RangesTo f d ('(' :: (target ++ [')'])) [] [] := by
  intro l r b hat hb
  obtain ⟨hopen, hlen⟩ := expectFence_leftParen hat
  obtain ⟨l₁, hat₁, hpasses⟩ := h _ (')' :: r)
    (at_of_rest (target ++ ')' :: r) (some (.fence .leftParen)))
    (endsNumber_of_not (by decide) (by decide) r)
  obtain ⟨fuel, hfuel, hskip⟩ := hpasses 0 b (Nat.le_trans (Nat.le_of_lt hlen) hb)
  obtain ⟨fuel', -, hclose⟩ := skipArguments_token hat₁
    (scan_punctuation (t := .fence .rightParen) (by decide) hat₁.rest_eq) 0 hfuel
  refine ⟨_, ?_, at_of_rest r (some (.fence .rightParen))⟩
  have hcall : skipCall b l = .ok ⟨r, none, some (.fence .rightParen)⟩ := by
    simp only [skipCall, hopen, bind, Except.bind]
    rw [hskip, hclose]
    exact skipArguments_zero _ _
  rw [rangeTo_nil, hcall]
  rfl

end TreePointer.Expression
