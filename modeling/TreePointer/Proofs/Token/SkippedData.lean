import TreePointer.Proofs.Token.Balanced
import TreePointer.Proofs.Token.Spelling

/-!
# Which data is passed over

The data of a scheme part is passed over in one go: nothing in it is read as a token. What can be
passed over is balanced data before the parenthesis that closes it, and this way of taking a text
apart is the only one. In any other text either a circumflex escapes nothing, and the fault is
there, or the text ends too early, and the fault is where the data began.

* `WellEscaped`, `Stray`: the circumflexes of a text.
* `firstStray_of_skip`, `wellEscaped_of_skip`: what it means that passing over fails.
* `Closing.unique`, `FirstStray.unique`: a text is taken apart in one way.
* `ExpectsOperator`: names that come next are operators.
* `skipData_accepts`: when data is passed over, and what happens if not.
-/

namespace TreePointer

namespace SchemeData

variable {c : Char} {cs d r s u v : List Char}

/-! ## Circumflexes -/

/-- Texts in which every circumflex escapes something. -/
inductive WellEscaped : List Char → Prop
  | nil : WellEscaped []
  | plain {c : Char} {cs : List Char} (hc : c ≠ '^') (h : WellEscaped cs) : WellEscaped (c :: cs)
  | escape {c : Char} {cs : List Char} (hc : IsSpecial c) (h : WellEscaped cs) :
      WellEscaped ('^' :: c :: cs)

/-- Texts that begin with a circumflex that escapes nothing. -/
inductive Stray : List Char → Prop
  | last : Stray ['^']
  | before {c : Char} (hc : ¬ IsSpecial c) (cs : List Char) : Stray ('^' :: c :: cs)

/-- The text goes on with `v` from the first circumflex that escapes nothing. -/
structure FirstStray (s u v : List Char) : Prop where
  escaped : WellEscaped u
  stray : Stray v
  eq : s = u ++ v

/-- **A fault inside the data** is at the first circumflex that escapes nothing. -/
theorem firstStray_of_skip {depth : Nat} (h : skip depth s = .strayEscape v) :
    ∃ u, FirstStray s u v := by
  fun_induction skip depth s with
  | case1 => cases h
  | case2 => cases h
  | case3 depth c cs hc ih =>
    obtain ⟨u, hu, hv, rfl⟩ := ih h
    exact ⟨'^' :: c :: u, .escape hc hu, hv, rfl⟩
  | case4 depth c cs hc =>
    cases h
    exact ⟨[], .nil, .before hc cs, rfl⟩
  | case5 depth cs hlast =>
    cases h
    cases cs with
    | nil => exact ⟨[], .nil, .last, rfl⟩
    | cons c cs => exact absurd rfl (hlast c cs rfl)
  | case6 depth cs _ _ ih =>
    obtain ⟨u, hu, hv, rfl⟩ := ih h
    exact ⟨'(' :: u, .plain (by decide) hu, hv, rfl⟩
  | case7 depth cs _ _ _ ih =>
    obtain ⟨u, hu, hv, rfl⟩ := ih h
    exact ⟨')' :: u, .plain (by decide) hu, hv, rfl⟩
  | case8 depth c cs _ hc _ _ ih =>
    obtain ⟨u, hu, hv, rfl⟩ := ih h
    exact ⟨c :: u, .plain hc hu, hv, rfl⟩

/-- **Where the text ends first**, no circumflex in it was at fault. -/
theorem wellEscaped_of_skip {depth : Nat} (h : skip depth s = .unclosed) : WellEscaped s := by
  fun_induction skip depth s with
  | case1 => cases h
  | case2 => exact .nil
  | case3 depth c cs hc ih => exact .escape hc (ih h)
  | case4 => cases h
  | case5 => cases h
  | case6 depth cs _ _ ih => exact .plain (by decide) (ih h)
  | case7 depth cs _ _ _ ih => exact .plain (by decide) (ih h)
  | case8 depth c cs _ hc _ _ ih => exact .plain hc (ih h)

/-- What goes on after a first character that is at no fault does not begin with a fault. -/
theorem WellEscaped.not_stray (hu : WellEscaped u) (hne : u ≠ []) (v : List Char) :
    ¬ Stray (u ++ v) := by
  intro hstray
  cases hu with
  | nil => exact hne rfl
  | plain hc =>
    generalize hw : _ ++ v = w at hstray
    cases hstray <;> exact hc (List.cons.inj hw).1
  | escape hc =>
    cases hstray with
    | before hc' => exact hc' hc

theorem WellEscaped.append_unique {u' v' : List Char} (hu : WellEscaped u) (hv : Stray v)
    (hu' : WellEscaped u') (hv' : Stray v') (h : u ++ v = u' ++ v') : u = u' ∧ v = v' := by
  induction hu generalizing u' with
  | nil =>
    by_cases hne : u' = []
    · subst hne
      exact ⟨rfl, h⟩
    · rw [List.nil_append] at h
      exact absurd (h ▸ hv) (hu'.not_stray hne v')
  | @plain c cs hc hcs ih =>
    cases hu' with
    | nil =>
      rw [List.nil_append] at h
      exact absurd (h ▸ hv') ((hcs.plain hc).not_stray (List.cons_ne_nil c cs) v)
    | plain _ hu' =>
      rw [List.cons_append, List.cons_append, List.cons.injEq] at h
      obtain ⟨rfl, h⟩ := h
      obtain ⟨rfl, rfl⟩ := ih hu' h
      exact ⟨rfl, rfl⟩
    | escape => exact absurd (List.cons.inj h).1 hc
  | @escape c cs hc hcs ih =>
    cases hu' with
    | nil =>
      rw [List.nil_append] at h
      exact absurd (h ▸ hv') ((hcs.escape hc).not_stray (List.cons_ne_nil _ _) v)
    | plain hc' => exact absurd (List.cons.inj h).1.symm hc'
    | escape _ hu' =>
      simp only [List.cons_append, List.cons.injEq, true_and] at h
      obtain ⟨rfl, h⟩ := h
      obtain ⟨rfl, rfl⟩ := ih hu' h
      exact ⟨rfl, rfl⟩

/-- **A text is taken apart in one way** at the first circumflex that escapes nothing. -/
theorem FirstStray.unique {u' v' : List Char} (h : FirstStray s u v) (h' : FirstStray s u' v') :
    u = u' ∧ v = v' :=
  h.escaped.append_unique h.stray h'.escaped h'.stray (h.eq.symm.trans h'.eq)

/-! ## The closing parenthesis -/

/-- The text is data up to the parenthesis that closes it, and a rest. -/
structure Closing (s d r : List Char) : Prop where
  balanced : Balanced d
  eq : s = d ++ ')' :: r

theorem skip_eq_closed_iff : skip 1 s = .closed r ↔ ∃ d, Closing s d r := by
  rw [skip_closed_iff]
  exact ⟨fun ⟨d, hd, hs⟩ => ⟨d, hd, hs⟩, fun ⟨d, h⟩ => ⟨d, h.balanced, h.eq⟩⟩

/-- **A text is taken apart in one way** at its closing parenthesis. -/
theorem Closing.unique {d' r' : List Char} (h : Closing s d r) (h' : Closing s d' r') :
    d = d' ∧ r = r' := by
  have hskip := skip_eq_closed_iff.mpr ⟨d, h⟩
  rw [skip_eq_closed_iff.mpr ⟨d', h'⟩, Outcome.closed.injEq] at hskip
  subst hskip
  exact ⟨List.append_cancel_right (h.eq.symm.trans h'.eq), rfl⟩

end SchemeData

namespace Lexer

open SchemeData

variable {l m : Lexer} {c : Char} {cs : List Char}

/-! ## Names behind the data -/

/-- A name that comes next is read as one of the named operators, or else refused. This leaves out a
name before a parenthesis, which is a function wherever it stands. -/
def ExpectsOperator (l : Lexer) : Prop :=
  ∀ c cs, skipWhite l.rest = c :: cs → isNameStart c = true →
    (skipWhite (cs.dropWhile isNameChar)).head? ≠ some '(' →
    let name := String.ofList (c :: cs.takeWhile isNameChar)
    (∃ o ∈ Token.named, o.text = name ∧ l.next
        = .ok (some (.operator o), ⟨cs.dropWhile isNameChar, none, some (.operator o)⟩)) ∨
      (∀ o ∈ Token.named, o.text ≠ name) ∧ l.next = .error (l.fault (.notOperator name))

/-- What starts like a name behind white space is read as one. -/
theorem scan_eq_readName (hcs : skipWhite l.rest = c :: cs) (hc : isNameStart c = true) :
    l.scan = match readName l.atOperator (c :: cs.takeWhile isNameChar)
        (cs.dropWhile isNameChar) with
      | .ok found => .ok (some found)
      | .error cause => .error (l.fault cause) := by
  have hnumber : ¬ startsNumber (c :: cs) = true := by
    intro hn
    have hdot := eq_dot_of_startsNumber hn (by simp [not_isDigit_of_isNameStart hc])
    exact ne_of_isNameStart hc (by decide) hdot
  have hdollar : c ≠ '$' := ne_of_isNameStart hc (by decide)
  cases hread : readName l.atOperator (c :: cs.takeWhile isNameChar) (cs.dropWhile isNameChar) <;>
    simp only [scan, hcs, if_neg hnumber, readFixed_of_isNameStart hc, if_neg hdollar,
      readOther_of_isNameStart hc, hread]

/-- **Where an operator is due**, a name is read as one. -/
theorem expectsOperator (hheld : l.held = none) (hop : l.atOperator = true) :
    l.ExpectsOperator := by
  intro c cs hcs hc hparen name
  have hfaithful := faithful_of_none hheld
  have hscan := scan_eq_readName hcs hc
  rw [hop, readName] at hscan
  simp only [if_neg hparen, if_true] at hscan
  cases hfind : Token.named.find? (·.text == name) with
  | some o =>
    have hname : o.text = name := by simpa using List.find?_some hfind
    rw [hfind] at hscan
    exact .inl ⟨o, List.mem_of_find?_eq_some hfind, hname, next_of_scan hfaithful hscan⟩
  | none =>
    rw [List.find?_eq_none] at hfind
    refine .inr ⟨fun o ho hname => hfind o ho (beq_iff_eq.mpr hname), ?_⟩
    rw [List.find?_eq_none.mpr hfind] at hscan
    exact next_of_scan_error hfaithful hscan

/-! ## Passing over data -/

/-- Behind the opening parenthesis the rest of the text decides. -/
theorem skipData_of_next (h : l.next = .ok (some (.fence .leftParen), m)) :
    l.skipData = match SchemeData.skip 1 m.rest with
      | .closed rest => (.ok (), ⟨rest, none, some (.fence .rightParen)⟩)
      | .strayEscape rest => (.error (.malformed .strayEscape rest), { m with rest })
      | .unclosed => (.error (.malformed .unbalancedData m.rest), m) := by
  rw [skipData, h]
  rfl

/-- **Balanced data is what is passed over.** Behind an opening parenthesis, passing over succeeds
exactly if the text is balanced data, the parenthesis that closes it and a rest. It is so in one way
only; the rest is what is left, and an operator is due there. Otherwise either some circumflex
escapes nothing, and what is left is the text from the first of these, or there is none, and all of
the text is left. -/
theorem skipData_accepts (h : l.next = .ok (some (.fence .leftParen), m)) :
    (∀ m', l.skipData = (.ok (), m') ↔
        ∃ d r, Closing m.rest d r ∧ m' = ⟨r, none, some (.fence .rightParen)⟩) ∧
      (∀ d r d' r', Closing m.rest d r → Closing m.rest d' r' → d = d' ∧ r = r') ∧
      (∀ m', l.skipData = (.ok (), m') → m'.atOperator = true ∧ m'.ExpectsOperator) ∧
      ((¬ ∃ d r, Closing m.rest d r) →
        (∃ u v, FirstStray m.rest u v ∧
            (∀ u' v', FirstStray m.rest u' v' → u' = u ∧ v' = v) ∧
            l.skipData = (.error (.malformed .strayEscape v), { m with rest := v })) ∨
          WellEscaped m.rest ∧
            l.skipData = (.error (.malformed .unbalancedData m.rest), m)) := by
  have hskip := skipData_of_next h
  have haccepts : ∀ m', l.skipData = (.ok (), m') ↔
      ∃ d r, Closing m.rest d r ∧ m' = ⟨r, none, some (.fence .rightParen)⟩ := by
    intro m'
    constructor
    · intro hok
      cases hs : SchemeData.skip 1 m.rest with
      | closed r =>
        obtain ⟨d, hd⟩ := skip_eq_closed_iff.mp hs
        rw [hskip, hs] at hok
        cases hok
        exact ⟨d, r, hd, rfl⟩
      | strayEscape v =>
        rw [hskip, hs] at hok
        cases hok
      | unclosed =>
        rw [hskip, hs] at hok
        cases hok
    · rintro ⟨d, r, hd, rfl⟩
      rw [hskip, skip_eq_closed_iff.mpr ⟨d, hd⟩]
  refine ⟨haccepts, fun d r d' r' hd hd' => hd.unique hd', ?_, ?_⟩
  · intro m' hok
    obtain ⟨d, r, -, rfl⟩ := (haccepts m').mp hok
    exact ⟨rfl, expectsOperator rfl rfl⟩
  · intro hnone
    cases hs : SchemeData.skip 1 m.rest with
    | closed r =>
      obtain ⟨d, hd⟩ := skip_eq_closed_iff.mp hs
      exact absurd ⟨d, r, hd⟩ hnone
    | strayEscape v =>
      obtain ⟨u, hu⟩ := firstStray_of_skip hs
      exact .inl ⟨u, v, hu, fun u' v' hu' => hu'.unique hu, by rw [hskip, hs]⟩
    | unclosed => exact .inr ⟨wellEscaped_of_skip hs, by rw [hskip, hs]⟩

/-- A lexer that holds the opening parenthesis passes over the data behind it. -/
theorem skipData_accepts_held :
    let l : Lexer :=
      ⟨"(a(^)b)) or".toList, some (.fence .leftParen, "a(^)b)) or".toList), none⟩
    l.next = .ok (some (.fence .leftParen),
        ⟨"a(^)b)) or".toList, none, some (.fence .leftParen)⟩) ∧
      l.skipData = (.ok (), ⟨" or".toList, none, some (.fence .rightParen)⟩) :=
  ⟨rfl, ((skipData_accepts rfl).1 _).mpr
    ⟨"a(^)b)".toList, " or".toList, ⟨by decide, rfl⟩, rfl⟩⟩

end Lexer

end TreePointer
