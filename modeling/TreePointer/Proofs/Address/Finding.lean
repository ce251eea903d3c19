import TreePointer.Proofs.Address.Reading

/-!
# From an expression to a whole address

The expressions that are made as addresses start with a path from the root or with one of four
functions. What such an expression evaluates to does not depend on where it is read, and it is what
the whole address evaluates to, inside `xpointer(...)` or without it.

* `Finds`: a text is such an expression and evaluates to some entries.
* `Finds.path`, `Finds.stretch`, `Finds.point`, `Finds.rangeTo`: how one is made of another.
* `Finds.pointOf`, `Finds.between`: the end of a place, and the range from one place to another.
* `Finds.evaluate`, `Finds.resolve`: what the address gives.
-/

namespace TreePointer

open Lexer

/-- Looking at a token once more changes nothing. -/
theorem Lexer.peek_peek {l l' : Lexer} {t : Option Token} (h : l.peek = .ok (t, l')) :
    l'.peek = .ok (t, l') := by
  obtain ⟨found, hs, h⟩ := exists_of_bind h
  cases h
  have hahead : Lexer.ahead { l with held := found } = .ok found := by
    cases found with
    | some found => rfl
    | none =>
      unfold Lexer.ahead at hs
      split at hs
      · cases hs
      · exact hs
  simp only [Lexer.peek, hahead, bind, Except.bind]

namespace Address

open Expression

variable {f : Forest} {d : Document} {o o' : Options} {t : Token} {text : List Char}
  {value : Context}

/-! ## Addresses that are expressions -/

/-- An address that begins with this text is read as an expression. -/
def StartsExpression (t : Token) (text : List Char) : Prop :=
  ∀ (l l₁ : Lexer) (r : List Char), l.At (text ++ r) → l.next = .ok (some t, l₁) →
    ∀ f d o b, ofToken f d o b t l₁ = fromRoot f d b t l₁

theorem StartsExpression.append (h : StartsExpression t text) (more : List Char) :
    StartsExpression t (text ++ more) := fun l l₁ r hat =>
  h l l₁ (more ++ r) (by rwa [← List.append_assoc])

theorem startsExpression_function {name : String} (h : name ∈ expressionFunctions) :
    StartsExpression (.functionName name) text := by
  intro l l₁ r _ _ f d o b
  rw [ofToken, if_pos h]

/-- A slash before a tag starts no child sequence. -/
theorem startsExpression_step {s : PathStep} (h : s.Legible) :
    StartsExpression (.operator .slash) ('/' :: s.text.toList) := by
  intro l l₁ r hat hnext f d o b
  obtain ⟨c, cs, hhead, hc⟩ := h.exists_head
  have hrest := hat.rest_eq
  rw [List.cons_append, hhead, List.cons_append] at hrest
  have hslash := hat.next (scan_slash hc hrest)
  rw [hnext, Except.ok.injEq, Prod.mk.injEq] at hslash
  obtain ⟨-, rfl⟩ := hslash
  have hs := h.scan (r := r) (l := ⟨c :: (cs ++ r), none, some (.operator .slash)⟩)
    (by rw [hhead]; rfl) rfl
  obtain ⟨l₂, hp, -, -⟩ := (at_of_rest (c :: (cs ++ r)) (some (.operator .slash))).peek hs
  -- the path looks at the tag again
  have hagain : ∀ g e, absolutePath g e (within g e b) l₂
      = absolutePath g e (within g e b) ⟨c :: (cs ++ r), none, some (.operator .slash)⟩ := by
    intro g e
    simp only [absolutePath, hp, Lexer.peek_peek hp, bind, Except.bind]
  simp only [ofToken, hp, bind, Except.bind, fromRoot, expression]
  exact hagain f d

/-- The text is the beginning of an address that is an expression, and evaluates to some entries
from wherever it is read. -/
def Finds (f : Forest) (d : Document) (text : List Char) (value : Context) : Prop :=
  ∃ t, StartsExpression t text ∧ ∀ ctx, Opens f d t text ctx value

theorem Finds.reads (h : Finds f d text value) : ∃ t, ∀ ctx, Reads f d t text ctx value :=
  have ⟨t, _, hopens⟩ := h
  ⟨t, fun ctx => (hopens ctx).reads⟩

/-- A call of one of the functions with which an address can start. -/
theorem finds_call {name : String} {args : List Char}
    (h : ∀ ctx, Calls f d name ('(' :: args) ctx value) (hfunction : isFunctionName name = true)
    (hname : name ∈ expressionFunctions) : Finds f d (name.toList ++ '(' :: args) value := by
  have hrange : name ≠ "range-to" := by
    rintro rfl
    revert hname
    decide
  exact ⟨.functionName name, startsExpression_function hname, fun ctx =>
    (h ctx).opens hfunction hrange⟩

/-- A path from the root. -/
theorem finds_path {steps : List PathStep} (hsteps : ∀ s ∈ steps, s.Legible) (hne : steps ≠ []) :
    Finds f d (pathChars steps) (nodeEntries (descend? f d steps (some d.root))) := by
  cases steps with
  | nil => exact absurd rfl hne
  | cons s steps =>
    refine ⟨.operator .slash, ?_, fun ctx => opens_path hsteps⟩
    rw [pathChars_cons]
    exact (startsExpression_step (hsteps s List.mem_cons_self)).append _

namespace Finds

/-- A path from what was found. -/
theorem path {p : Option Node} (h : Finds f d text (nodeEntries p)) {steps : List PathStep}
    (hsteps : ∀ s ∈ steps, s.Legible) :
    Finds f d (text ++ pathChars steps) (nodeEntries (descend? f d steps p)) :=
  have ⟨t, hstart, hopens⟩ := h
  ⟨t, hstart.append _, fun ctx => (hopens ctx).path hsteps⟩

/-- A stretch of the text of what was found. -/
theorem stretch (h : Finds f d text value) {start length : Nat}
    (hstart : start < Binary64.exactBound) (hlength : length < Binary64.exactBound)
    {found : Context} (hfound : stringRanges f start length value = .ok found) :
    Finds f d ("string-range".toList ++ stringRangeChars text start length) found :=
  have ⟨_, hreads⟩ := h.reads
  finds_call (fun ctx => calls_stringRange (hreads ctx) hstart hlength hfound) rfl (by decide)

/-- One end of what was found. -/
theorem point (h : Finds f d text value) (toStart : Bool) {points : Context}
    (hpoints : value.mapM (pointOf f toStart) = .ok points) :
    Finds f d ((pointName toStart).toList ++ '(' :: (text ++ [')'])) points :=
  have ⟨_, hreads⟩ := h.reads
  finds_call (fun ctx => calls_point (hreads ctx) hpoints) (by cases toStart <;> rfl)
    (by cases toStart <;> decide)

/-- One end of the place that was found. -/
theorem pointOf {entry : Location} {r : Range} (h : Finds f d text [entry])
    (hr : entry.toRange f = .ok r) (toStart : Bool) :
    Finds f d ((pointName toStart).toList ++ '(' :: (text ++ [')']))
      [.range (r.collapse toStart)] := by
  refine h.point toStart ?_
  simp [Expression.pointOf, hr, bind, Except.bind, pure, Except.pure]

/-- The step `range-to` from what was found. -/
theorem rangeTo (h : Finds f d text value) {target : List Char} {ranges : Context}
    (hrange : RangesTo f d ('(' :: (target ++ [')'])) value ranges) :
    Finds f d (text ++ rangeToChars target) ranges :=
  have ⟨t, hstart, hopens⟩ := h
  ⟨t, hstart.append _, fun ctx => (hopens ctx).rangeTo hrange⟩

/-- The range from the place that was found to another one, which is read from there. -/
theorem between {entry entry' : Location} {r s made : Range} {target : List Char}
    (h : Finds f d text [entry]) (hr : entry.toRange f = .ok r)
    (hlast : Reads f d t target [entry] [entry']) (hs : entry'.toRange f = .ok s)
    (hmake : Range.make f r.start s.stop = .ok made) :
    Finds f d (text ++ rangeToChars target) [.range made] := by
  refine h.rangeTo (hlast.rangesTo hr ?_)
  simp only [rangeOnto, hs, hmake, bind, Except.bind]

end Finds

/-! ## Whole addresses -/

/-- The scheme around an address, if it is written. -/
def wrapped (o : Options) (body : String) : String :=
  if o.wrapScheme then "xpointer(" ++ body ++ ")" else body

theorem not_blank_of_scan {body : String} {r : List Char}
    (h : (ofString body).scan = .ok (some (t, r))) :
    ¬ body.toList.all Unicode.isWhiteSpace = true := by
  intro hall
  have hwhite : skipWhite (ofString body).rest = [] := by
    have hrest : (ofString body).rest = body.toList ++ [] := (List.append_nil _).symm
    rw [skipWhite, hrest, List.dropWhile_append_of_pos (List.all_eq_true.mp hall),
      List.dropWhile_nil]
  rw [scan, hwhite] at h
  cases h

theorem expectEnd_of_scan_none {l : Lexer} (hl : l.Faithful) (hs : l.scan = .ok none) :
    expectEnd l = .ok () := by
  simp only [expectEnd, At.next_none ⟨rfl, hl⟩ hs, bind, Except.bind]

theorem expectEnd_at {l : Lexer} (h : l.At []) : expectEnd l = .ok () :=
  expectEnd_of_scan_none h.faithful (scan_nil h.rest_eq)

/-- An address that is an expression is evaluated from the root. -/
theorem StartsExpression.evaluate {body : String} {l₁ : Lexer}
    (h : StartsExpression t body.toList) (hs : (ofString body).scan = .ok (some (t, l₁.rest)))
    (hnext : (ofString body).next = .ok (some t, l₁)) :
    Address.evaluate f d o body = (do
      let (ctx, l) ← fromRoot f d l₁.rest.length t l₁
      expectEnd l
      .ok ctx) := by
  have hat : (ofString body).At (body.toList ++ []) := by
    rw [List.append_nil]
    exact at_ofString body
  rw [Address.evaluate, if_neg (not_blank_of_scan hs)]
  simp only [expect_ok_iff.mpr hnext, h _ _ [] hat hnext, bind, Except.bind]

/-- The expression alone. -/
theorem Finds.evaluate_plain {body : String} (h : Finds f d body.toList value) :
    evaluate f d o body = .ok value := by
  obtain ⟨t, hstart, hopens⟩ := h
  have hat : (ofString body).At (body.toList ++ []) := by
    rw [List.append_nil]
    exact at_ofString body
  obtain ⟨l₁, hs, hnext, hvalue⟩ := (hopens [.node d.root]).reads _ [] hat stops_nil
  obtain ⟨l₂, hl₂, hat₂⟩ := hvalue l₁.rest.length (Nat.le_refl _)
  have hroot : fromRoot f d l₁.rest.length t l₁ = .ok (value, l₂) := hl₂
  rw [hstart.evaluate hs hnext]
  simp only [hroot, expectEnd_at hat₂, bind, Except.bind]

theorem expressionPart_reads {chars : List Char} (h : Reads f d t chars [.node d.root] value)
    {l : Lexer} {r : List Char} (hat : l.At ('(' :: (chars ++ ')' :: r))) {b : Nat}
    (hb : l.rest.length ≤ b) :
    expressionPart f d b l = .ok (value, ⟨r, none, some (.fence .rightParen)⟩) := by
  have hopen : l.expectFence .leftParen = .ok _ :=
    hat.expectToken (scan_punctuation (by decide) hat.rest_eq) _
  obtain ⟨l₁, hs, hnext, hvalue⟩ := h _ (')' :: r)
    (at_of_rest (chars ++ ')' :: r) (some (.fence .leftParen))) (stops_rightParen r)
  have hshort := (scan_shorter hs).2
  obtain ⟨l₂, hl₂, hat₂⟩ := hvalue b (by
    rw [hat.rest_eq, List.length_cons] at hb
    exact Nat.le_trans (Nat.le_of_lt hshort) (Nat.le_of_succ_le hb))
  have hroot : fromRoot f d b t l₁ = .ok (value, l₂) := hl₂
  have hclose : l₂.expectFence .rightParen = .ok _ :=
    hat₂.expectToken (scan_punctuation (by decide) hat₂.rest_eq) _
  simp only [expressionPart, hopen, expect_ok_iff.mpr hnext, hroot, hclose, bind, Except.bind]

section Scheme

variable {scheme opening : String} (hscheme : isFunctionName scheme = true)
  (hopening : opening.toList = scheme.toList ++ ['('])

include hscheme hopening

/-- The scheme is read as a function. -/
theorem scan_scheme (body : String) : (ofString (opening ++ body ++ ")")).scan
    = .ok (some (.functionName scheme, '(' :: (body.toList ++ [')']))) := by
  have htext : (opening ++ body ++ ")").toList
      = scheme.toList ++ '(' :: (body.toList ++ [')']) := by
    have hclose : ")".toList = [')'] := rfl
    rw [String.toList_append, String.toList_append, hopening, hclose]
    simp only [List.append_assoc, List.cons_append, List.nil_append]
  exact scan_function hscheme htext

variable (hname : scheme ∉ expressionFunctions)

include hname

/-- An address with the scheme has one part. -/
theorem evaluate_scheme (f : Forest) (d : Document) (o : Options) (body : String) :
    evaluate f d o (opening ++ body ++ ")") = (do
      let (ctx, l) ← schemes f d o ('(' :: (body.toList ++ [')'])).length
        (.functionName scheme)
        ⟨'(' :: (body.toList ++ [')']), none, some (.functionName scheme)⟩
      expectEnd l
      .ok ctx) := by
  have hat := at_ofString (opening ++ body ++ ")")
  have hs := scan_scheme hscheme hopening body
  rw [evaluate, if_neg (not_blank_of_scan hs)]
  simp only [hat.expect hs, ofToken, if_neg hname, bind, Except.bind]

/-- The one part of an address gives its value. -/
theorem evaluate_of_schemePart {body : String} {found : Option Context}
    (h : schemePart f d o ('(' :: (body.toList ++ [')'])).length (.functionName scheme) none
        ⟨'(' :: (body.toList ++ [')']), none, some (.functionName scheme)⟩
      = .ok (found, ⟨[], none, some (.fence .rightParen)⟩)) :
    evaluate f d o (opening ++ body ++ ")") = .ok (found.getD []) := by
  have hend := at_of_rest [] (some (.fence .rightParen))
  have hmore : schemeParts f d o ('(' :: (body.toList ++ [')'])).length found
      ⟨[], none, some (.fence .rightParen)⟩
      = .ok (found, ⟨[], none, some (.fence .rightParen)⟩) := by
    rw [List.length_cons, schemeParts]
    simp only [hend.next_none (scan_nil rfl), bind, Except.bind]
  rw [evaluate_scheme hscheme hopening hname]
  simp only [schemes, h, hmore, expectEnd_at hend, bind, Except.bind]

end Scheme

theorem scan_xpointer (body : String) : (ofString ("xpointer(" ++ body ++ ")")).scan
    = .ok (some (.functionName "xpointer", '(' :: (body.toList ++ [')']))) :=
  scan_scheme (by decide) rfl body

theorem evaluate_xpointer (f : Forest) (d : Document) (o : Options) (body : String) :
    evaluate f d o ("xpointer(" ++ body ++ ")") = (do
      let (ctx, l) ← schemes f d o ('(' :: (body.toList ++ [')'])).length
        (.functionName "xpointer")
        ⟨'(' :: (body.toList ++ [')']), none, some (.functionName "xpointer")⟩
      expectEnd l
      .ok ctx) :=
  evaluate_scheme (by decide) rfl (by decide) f d o body

/-- The one part of an address with the scheme counts if it gives a place. -/
theorem evaluate_of_expressionPart {body : String}
    (h : expressionPart f d ('(' :: (body.toList ++ [')'])).length
        ⟨'(' :: (body.toList ++ [')']), none, some (.functionName "xpointer")⟩
      = .ok (value, ⟨[], none, some (.fence .rightParen)⟩)) :
    evaluate f d o ("xpointer(" ++ body ++ ")") = .ok ((locating value).getD []) := by
  have hscheme : isFunctionName "xpointer" = true := by decide
  refine evaluate_of_schemePart hscheme rfl (by decide) ?_
  simp only [schemePart, Option.isSome_none, Bool.false_eq_true, if_false, if_true, h, bind,
    Except.bind]

/-- The expression inside `xpointer(...)`, which counts if it gives a place. -/
theorem Finds.evaluate_scheme {body : String} (h : Finds f d body.toList value) :
    evaluate f d o ("xpointer(" ++ body ++ ")") = .ok ((locating value).getD []) := by
  obtain ⟨t, hreads⟩ := h.reads
  exact evaluate_of_expressionPart (expressionPart_reads (hreads [.node d.root])
    (at_of_rest ('(' :: (body.toList ++ ')' :: [])) (some (.functionName "xpointer")))
    (Nat.le_refl _))

/-- **An address** evaluates to the places that its expression finds, whether the scheme is written
or not. -/
theorem Finds.evaluate {body : String} (h : Finds f d body.toList value)
    (hplaces : ∀ entry ∈ value, entry.isPlace = true) :
    Address.evaluate f d o' (wrapped o body) = .ok value := by
  unfold wrapped
  split
  · rw [h.evaluate_scheme]
    cases value with
    | nil => rfl
    | cons first rest =>
      have hfirst : (locating (first :: rest)) = some (first :: rest) :=
        if_pos (hplaces first List.mem_cons_self)
      rw [hfirst, Option.getD_some]
  · exact h.evaluate_plain

/-- What has a range is a place. -/
theorem isPlace_of_toRange {entry : Location} {r : Range} (h : entry.toRange f = .ok r) :
    entry.isPlace = true := by
  cases entry with
  | node _ => rfl
  | range _ => rfl
  | _ => cases h

/-- What is found first is the range of the address. -/
theorem Finds.resolve {body : String} {entry : Location} {r : Range}
    (h : Finds f d body.toList [entry]) (hr : entry.toRange f = .ok r) :
    Address.resolve f d o' (wrapped o body) = .ok r := by
  have hplace := isPlace_of_toRange hr
  have hvalue : Address.evaluate f d o' (wrapped o body) = .ok [entry] :=
    h.evaluate fun entry' hentry => by rwa [List.mem_singleton.mp hentry]
  simp only [Address.resolve, hvalue, bind, Except.bind, hplace, if_true, hr]

end Address

end TreePointer
