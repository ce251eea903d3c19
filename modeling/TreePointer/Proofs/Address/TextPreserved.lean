import TreePointer.Proofs.Address.Covering
import TreePointer.Proofs.Address.RoundTrip

/-!
# No selected text is lost or added

What the address of a selection stands for shows what the selection shows, but for characters that
are not counted, which are blanks.

* `text_preserved`: the text of the selection is that of the range its address stands for, but for
  blanks at the ends.
* `not_text_preserved_starred`: not so in an element that is named like the wildcard.
-/

namespace TreePointer

namespace Address

variable {f : Forest} {d : Document} {o o' : Options} {a b : Boundary} {p q : Node}

/-! ## The text of a selection -/

/-- The text between two boundaries, without the blanks at its ends. -/
def trimmedBetween (f : Forest) (r : Node) (a b : Boundary) : List Char :=
  trim (slice (f.visibleChars r) (f.textOffset r a) (f.textOffset r b))

/-- The body is an address of a range between texts that has the content of a selection. -/
def Preserves (f : Forest) (d : Document) (body : String) (a b : Boundary) : Prop :=
  ∃ r : Range, (∀ o o', resolve f d o' (wrapped o body) = .ok r) ∧ r.start.InShown f d.root ∧
    r.stop.InShown f d.root ∧
    trimmedBetween f d.root r.start r.stop = trimmedBetween f d.root a b

section Selected

variable (hd : d.Rooted f) (hsole : d.IsSole f) (hlex : d.Lexable f) (hstar : d.NoWildcard f)
  (hchars : ∀ n, f.Within d.root n → (f.visibleChars n).length + 1 < Binary64.exactBound)

include hd hsole hlex hstar hchars

/-- The expression for a stretch between two texts keeps the text between them. -/
theorem betweenTexts_preserves (htext : d.TextInElements f) (ha : a.InShown f d.root)
    (hb : b.InShown f d.root) :
    ∃ text, betweenTexts f d o a b = .ok text ∧ Preserves f d text a b := by
  have wf := hd.wellFormed
  obtain ⟨p, hap⟩ := hd.inText_of_inShown htext
    (settleStart_spec wf hd.has_root hd.parent_root ha).1
  obtain ⟨q, hbq⟩ := hd.inText_of_inShown htext (settleEnd_spec wf hd.has_root hd.parent_root hb).1
  obtain ⟨text, hbetween⟩ := exists_betweenTexts (o := o) hd hsole hlex.named hap hbq
  have hshows := betweenTexts_shows (o := o) hd (findable hd hlex hstar)
    (fun n hn _ => hchars n hn.1) htext ha hb
  obtain ⟨r, k, m, hresolve, hat, hstart, hstop, hsame⟩ := hshows.of_eq_ok hbetween
  refine ⟨text, hbetween, r, hresolve, hstart, hstop, ?_⟩
  rw [trimmedBetween, hat.start.offset_eq, hat.stop.offset_eq]
  exact hsame.trim_slice

end Selected

/-! ## Selections in either order -/

/-- **No selected text is lost or added.** Of two different boundaries in the texts of a document
without marks, in either order, an address is made and resolved, and the text of the range it
stands for is that of the selection but for blanks at the ends. -/
theorem text_preserved (hd : d.Rooted f) (hsole : d.IsSole f) (hunmarked : d.IsUnmarked f)
    (htext : d.TextInElements f) (hlex : d.Lexable f) (hstar : d.NoWildcard f)
    (hchars : ∀ n, f.Within d.root n → (f.visibleChars n).length + 1 < Binary64.exactBound)
    (ha : f.Within d.root a.container) (hta : f.isText a.container = true) (hai : a.InBounds f)
    (hb : f.Within d.root b.container) (htb : f.isText b.container = true) (hbi : b.InBounds f)
    (hne : a ≠ b) :
    ∃ (selected found : Range) (address : String) (cs cs' : List Char),
      (Selection.anchorFocus a b).ends f = .ok (selected.start, selected.stop) ∧
      create f d o (.anchorFocus a b) = .ok address ∧ resolve f d o' address = .ok found ∧
      selected.text f = .ok cs ∧ found.text f = .ok cs' ∧ trim cs' = trim cs := by
  have wf := hd.wellFormed
  have hshown := fun t => hd.isShown_of_isText hunmarked (t := t)
  have has : a.InShown f d.root := ⟨ha, hshown _ ha hta, hai⟩
  have hbs : b.InShown f d.root := ⟨hb, hshown _ hb htb, hbi⟩
  -- the ends in document order
  obtain ⟨x, y, hx, hy, hxy, hs⟩ : ∃ x y : Boundary, x.InShown f d.root ∧ y.InShown f d.root ∧
      x.compare f y = .ok .lt ∧ (Selection.anchorFocus a b).Spans x y := by
    rcases compare_of_ne wf hd.has_root has hbs hne with hlt | hgt
    · exact ⟨a, b, has, hbs, hlt, .inr (.inl rfl)⟩
    · exact ⟨b, a, hbs, has, hgt, .inr (.inr rfl)⟩
  obtain ⟨p, hxp⟩ := hd.inText_of_inShown htext hx
  obtain ⟨q, hyq⟩ := hd.inText_of_inShown htext hy
  obtain ⟨text, hbetween, r, hresolve, hr, hr', htrim⟩ :=
    betweenTexts_preserves (o := o) hd hsole hlex hstar hchars htext hx hy
  have hslice := fun {c e : Boundary} => wf.text_eq_slice (a := c) (b := e) hd.has_root
    hd.parent_root hshown
  refine ⟨⟨x, y⟩, r, wrapped o text, _, _, ends_of_spans wf hx.within hy.within hx.inBounds
    hy.inBounds hxy hs, ?_, hresolve o o', hslice hx hy, hslice hr hr', htrim⟩
  rw [create_texts hd hxp hyq hxy hs, hbetween]
  rfl

/-- The document `<r><p>ab  </p><q></q><s>  cd </s></r>`, where `q` holds an empty text. -/
def spaced : Forest := ⟨#[
  { Record.bare .document with children := [⟨1⟩] },
  { Record.bare .element with
    name := some (.plain "r"), parent := some ⟨0⟩, children := [⟨2⟩, ⟨4⟩, ⟨6⟩] },
  { Record.bare .element with
    name := some (.plain "p"), parent := some ⟨1⟩, children := [⟨3⟩] },
  { Record.bare .text with value := some "ab  ", parent := some ⟨2⟩ },
  { Record.bare .element with
    name := some (.plain "q"), parent := some ⟨1⟩, children := [⟨5⟩] },
  { Record.bare .text with value := some "", parent := some ⟨4⟩ },
  { Record.bare .element with
    name := some (.plain "s"), parent := some ⟨1⟩, children := [⟨7⟩] },
  { Record.bare .text with value := some "  cd ", parent := some ⟨6⟩ }]⟩

theorem spaced_rooted : Document.Rooted spaced ⟨⟨0⟩, .xml⟩ := by decide

/-- From behind the `a` to before the `c`, set from its end. -/
theorem text_preserved_spaced :
    ∃ (selected found : Range) (address : String) (cs cs' : List Char),
      (Selection.anchorFocus ⟨⟨7⟩, 2⟩ ⟨⟨3⟩, 1⟩).ends spaced
        = .ok (selected.start, selected.stop) ∧
      create spaced ⟨⟨0⟩, .xml⟩ .standard (.anchorFocus ⟨⟨7⟩, 2⟩ ⟨⟨3⟩, 1⟩) = .ok address ∧
      resolve spaced ⟨⟨0⟩, .xml⟩ .standard address = .ok found ∧
      selected.text spaced = .ok cs ∧ found.text spaced = .ok cs' ∧ trim cs' = trim cs :=
  text_preserved spaced_rooted (spaced_rooted.isSole_of_check (by decide))
    (spaced_rooted.forall_within (by decide))
    (spaced_rooted.textInElements_of_check (by decide))
    (spaced_rooted.lexable_of_check (by decide))
    (spaced_rooted.noWildcard_of_check (by decide))
    (spaced_rooted.forall_within (by decide))
    (by decide) (by decide) (by decide) (by decide) (by decide) (by decide)
    (by decide)

/-- The step to an element of the name `*` is read as a step to any element, so that the text of
another element comes back. -/
theorem not_text_preserved_starred :
    ¬ ∀ (f : Forest) (d : Document) (o : Options) (a b : Boundary),
      d.Rooted f → d.IsSole f → d.IsUnmarked f → d.TextInElements f → d.Lexable f →
      (∀ n, f.Within d.root n → (f.visibleChars n).length < Binary64.exactBound) →
      f.Within d.root a.container → f.isText a.container = true → a.InBounds f →
      f.Within d.root b.container → f.isText b.container = true → b.InBounds f → a ≠ b →
      ∃ (selected found : Range) (address : String) (cs cs' : List Char),
        (Selection.anchorFocus a b).ends f = .ok (selected.start, selected.stop) ∧
        create f d o (.anchorFocus a b) = .ok address ∧ resolve f d o address = .ok found ∧
        selected.text f = .ok cs ∧ found.text f = .ok cs' ∧ trim cs' = trim cs := by
  intro h
  obtain ⟨selected, found, address, cs, cs', hends, hcreate, hresolve, hcs, hcs', htrim⟩ :=
    h starred ⟨⟨0⟩, .xml⟩ .standard ⟨⟨5⟩, 0⟩ ⟨⟨5⟩, 1⟩ starred_rooted
      (starred_rooted.isSole_of_check (by decide))
      (starred_rooted.forall_within (by decide))
      (starred_rooted.textInElements_of_check (by decide))
      (starred_rooted.lexable_of_check (by decide))
      (starred_rooted.forall_within (by decide))
      (by decide) (by decide) (by decide) (by decide) (by decide) (by decide)
      (by decide)
  have hselected : (Selection.anchorFocus ⟨⟨5⟩, 0⟩ ⟨⟨5⟩, 1⟩).ends starred
      = .ok (⟨⟨5⟩, 0⟩, ⟨⟨5⟩, 1⟩) := by rfl
  have hmade : (create starred ⟨⟨0⟩, .xml⟩ .standard (.anchorFocus ⟨⟨5⟩, 0⟩ ⟨⟨5⟩, 1⟩)).toOption
      = some "xpointer(string-range(/r[1]/*[1], \"\", 1, 1))" := by decide
  have hfound : (resolve starred ⟨⟨0⟩, .xml⟩ .standard
      "xpointer(string-range(/r[1]/*[1], \"\", 1, 1))").toOption
      = some ⟨⟨⟨3⟩, 0⟩, ⟨⟨3⟩, 1⟩⟩ := by decide +kernel
  rw [hcreate, Except.toOption, Option.some.injEq] at hmade
  rw [← hmade, hresolve, Except.toOption, Option.some.injEq] at hfound
  rw [hselected, Except.ok.injEq, Prod.mk.injEq] at hends
  have hy : (selected.text starred).toOption = some ['y'] := by
    rw [show selected = ⟨⟨⟨5⟩, 0⟩, ⟨⟨5⟩, 1⟩⟩ from by cases selected; rw [hends.1, hends.2]]
    decide
  have hx : (found.text starred).toOption = some ['x'] := by
    rw [hfound]
    decide
  rw [hcs, Except.toOption, Option.some.injEq] at hy
  rw [hcs', Except.toOption, Option.some.injEq] at hx
  rw [hy, hx] at htrim
  revert htrim
  decide

end Address

end TreePointer
