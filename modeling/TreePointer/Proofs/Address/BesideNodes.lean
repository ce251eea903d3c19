import TreePointer.Proofs.Address.Edges
import TreePointer.Proofs.Address.Moving

/-!
# Selections with ends beside nodes

An end of a selection that is in no text moves before it is written down. In a document without
marks it never moves out of the selection, so that nothing comes to be selected that was not; what
may be lost is what it moves past on the way to an element, from beside a comment or an instruction.

* `NothingLost`: all content between two boundaries lies between two others.
* `text_between_named`: the text that comes back is that between the moved ends, and is the selected
  one just if nothing was lost.
* `not_text_between_named_interrupted`: a text behind a comment is lost.
-/

namespace TreePointer.Address

variable {f : Forest} {d : Document} {o o' : Options} {a b : Boundary}

/-- What is seen between two boundaries lies between the two others, but for blanks. -/
def NothingLost (f : Forest) (r : Node) (a b a' b' : Boundary) : Prop :=
  ∀ k c, (f.visibleChars r)[k]? = some c → isBlank c = false →
    f.textOffset r a ≤ k → k < f.textOffset r b →
      f.textOffset r a' ≤ k ∧ k < f.textOffset r b'

/-- **What comes back of a selection.** In a document without marks, let a selection have an
address, its ends in whatever nodes. The address stands for a range with the text between the ends
as they have moved. That is the selected text, but for blanks at the ends, just if no more than
blanks was lost; and it is unless the container of an end has a comment or an instruction beside
it. -/
theorem text_between_named (hd : d.Rooted f) (hunmarked : d.IsUnmarked f)
    (htext : d.TextInElements f) (hlex : d.Lexable f) (hstar : d.NoWildcard f)
    (hchars : ∀ n, f.Within d.root n → (f.visibleChars n).length + 1 < Binary64.exactBound)
    (ha : f.Within d.root a.container) (hai : a.InBounds f) (hb : f.Within d.root b.container)
    (hbi : b.InBounds f) (hab : a.compare f b = .ok .lt) {s : Selection} (hs : s.Spans a b)
    {address : String} (hcreate : create f d o s = .ok address) :
    ∃ (a' b' : Boundary) (found : Range) (cs cs' : List Char),
      namedStart f a = .ok a' ∧ namedStop f b = .ok b' ∧
      resolve f d o' address = .ok found ∧
      (Range.mk a b).text f = .ok cs ∧ found.text f = .ok cs' ∧
      trim cs' = trimmedBetween f d.root a' b' ∧
      (trim cs' = trim cs ↔ NothingLost f d.root a b a' b') ∧
      (d.IsSole f → (∀ n, f.following? a.container = some n ∨ f.preceding? b.container = some n →
        f.isContent n = true) → trim cs' = trim cs) := by
  have wf := hd.wellFormed
  have hshown : d.TextsShown f := fun t => hd.isShown_of_isText hunmarked (t := t)
  have hleave := leaveMarkedStart_of_unmarked wf hunmarked ha
  have hleave' := leaveMarkedEnd_of_unmarked wf hunmarked hb
  have hat : a.At f d.root (f.textOffset d.root a) := ⟨ha, hai, rfl⟩
  have hbt : b.At f d.root (f.textOffset d.root b) := ⟨hb, hbi, rfl⟩
  obtain ⟨body, rfl, a', b', k, m, ha', hb', hat', hbt', r, k', m', hresolve, hrat, -, -, hsame⟩ :=
    create_shows hd hshown htext (findable hd hlex hstar) (fun n hn _ => hchars n hn.1) ha hb hab
      (ends_of_spans wf ha hb hai hbi hab hs) (by rw [hleave]; exact .ok ⟨_, hat⟩)
      (by rw [hleave']; exact .ok ⟨_, hbt⟩) hcreate
  obtain ⟨i, hai', hle, hexact⟩ := (namedStart_spec hd hleave hat).of_toOption (a := a')
    (by rw [ha']; rfl)
  obtain ⟨j, hbj', hle', hexact'⟩ := (namedStop_spec hd hshown hleave' hbt).of_toOption (a := b')
    (by rw [hb']; rfl)
  have htrim : trim (slice (f.visibleChars d.root) k' m') = trimmedBetween f d.root a' b' := by
    rw [trimmedBetween, hat'.offset_eq, hbt'.offset_eq]
    exact hsame.trim_slice
  rw [← hai'.offset_eq] at hle hexact
  rw [← hbj'.offset_eq] at hle' hexact'
  refine ⟨a', b', r, _, _, ha', hb', hresolve o o',
    wf.text_eq_slice_of_within hd.has_root hd.parent_root hshown ha hb,
    wf.text_eq_slice_of_within hd.has_root hd.parent_root hshown hrat.start.within
      hrat.stop.within, ?_, ?_, fun hsole hbeside => ?_⟩
  · rw [hrat.start.offset_eq, hrat.stop.offset_eq, htrim]
  · rw [hrat.start.offset_eq, hrat.stop.offset_eq, htrim]
    exact trim_slice_eq_iff hle hle'
  · rw [hrat.start.offset_eq, hrat.stop.offset_eq, htrim, trimmedBetween,
      hexact hsole fun n hn => hbeside n (.inl hn), hexact' hsole fun n hn => hbeside n (.inr hn)]

/-- The document `<r><p>a</p><!--c-->bc<q>d</q></r>`. -/
def interrupted : Forest := ⟨#[
  { Record.bare .document with children := [⟨1⟩] },
  { Record.bare .element with
    name := some (.plain "r"), parent := some ⟨0⟩, children := [⟨2⟩, ⟨4⟩, ⟨5⟩, ⟨6⟩] },
  { Record.bare .element with
    name := some (.plain "p"), parent := some ⟨1⟩, children := [⟨3⟩] },
  { Record.bare .text with value := some "a", parent := some ⟨2⟩ },
  { Record.bare .comment with value := some "c", parent := some ⟨1⟩ },
  { Record.bare .text with value := some "bc", parent := some ⟨1⟩ },
  { Record.bare .element with
    name := some (.plain "q"), parent := some ⟨1⟩, children := [⟨7⟩] },
  { Record.bare .text with value := some "d", parent := some ⟨6⟩ }]⟩

theorem interrupted_rooted : Document.Rooted interrupted ⟨⟨0⟩, .xml⟩ := by decide

/-- From behind the `a` to behind the `q`. -/
theorem text_between_named_interrupted :
    ∃ (a' b' : Boundary) (found : Range) (cs cs' : List Char),
      namedStart interrupted ⟨⟨2⟩, 1⟩ = .ok a' ∧ namedStop interrupted ⟨⟨1⟩, 4⟩ = .ok b' ∧
      resolve interrupted ⟨⟨0⟩, .xml⟩ .standard "xpointer(/r[1]/q[1])" = .ok found ∧
      (Range.mk ⟨⟨2⟩, 1⟩ ⟨⟨1⟩, 4⟩).text interrupted = .ok cs ∧
      found.text interrupted = .ok cs' ∧ trim cs' = trimmedBetween interrupted ⟨0⟩ a' b' ∧
      (trim cs' = trim cs ↔ NothingLost interrupted ⟨0⟩ ⟨⟨2⟩, 1⟩ ⟨⟨1⟩, 4⟩ a' b') ∧
      (Document.IsSole interrupted ⟨⟨0⟩, .xml⟩ →
        (∀ n, interrupted.following? ⟨2⟩ = some n ∨ interrupted.preceding? ⟨1⟩ = some n →
          interrupted.isContent n = true) → trim cs' = trim cs) :=
  text_between_named (o := .standard) interrupted_rooted
    (interrupted_rooted.forall_within (by decide))
    (interrupted_rooted.textInElements_of_check (by decide))
    (interrupted_rooted.lexable_of_check (by decide))
    (interrupted_rooted.noWildcard_of_check (by decide))
    (interrupted_rooted.forall_within (by decide)) (by decide) (by decide)
    (by decide) (by decide) (by decide) (.inl rfl) (by decide)

/-- The text behind the comment is selected and does not come back. -/
theorem not_text_between_named_interrupted :
    ¬ ∀ (f : Forest) (d : Document) (o : Options) (selected : Range) (address : String),
      d.Rooted f → d.IsSole f → d.IsUnmarked f → d.TextInElements f → d.Lexable f →
      d.NoWildcard f →
      (∀ n, f.Within d.root n → (f.visibleChars n).length + 1 < Binary64.exactBound) →
      f.Within d.root selected.start.container → selected.start.InBounds f →
      f.Within d.root selected.stop.container → selected.stop.InBounds f →
      selected.start.compare f selected.stop = .ok .lt →
      (f.isText selected.start.container = false ∨ f.isText selected.stop.container = false) →
      createFromRange f d o selected = .ok address →
      ∃ (found : Range) (cs cs' : List Char), resolve f d o address = .ok found ∧
        selected.text f = .ok cs ∧ found.text f = .ok cs' ∧ trim cs' = trim cs := by
  intro h
  obtain ⟨found, cs, cs', hresolve, hcs, hcs', htrim⟩ :=
    h interrupted ⟨⟨0⟩, .xml⟩ .standard ⟨⟨⟨2⟩, 1⟩, ⟨⟨1⟩, 4⟩⟩ "xpointer(/r[1]/q[1])"
      interrupted_rooted (interrupted_rooted.isSole_of_check (by decide))
      (interrupted_rooted.forall_within (by decide))
      (interrupted_rooted.textInElements_of_check (by decide))
      (interrupted_rooted.lexable_of_check (by decide))
      (interrupted_rooted.noWildcard_of_check (by decide))
      (interrupted_rooted.forall_within (by decide)) (by decide) (by decide)
      (by decide) (by decide) (by decide) (.inl (by decide)) (by decide)
  have hfound : resolve interrupted ⟨⟨0⟩, .xml⟩ .standard "xpointer(/r[1]/q[1])"
      = .ok ⟨⟨⟨1⟩, 3⟩, ⟨⟨1⟩, 4⟩⟩ := by decide +kernel
  obtain rfl := Except.ok.inj (hfound.symm.trans hresolve)
  have hselected : (Range.mk ⟨⟨2⟩, 1⟩ ⟨⟨1⟩, 4⟩).text interrupted = .ok ['b', 'c', 'd'] := by
    decide
  have htext : (Range.mk ⟨⟨1⟩, 3⟩ ⟨⟨1⟩, 4⟩).text interrupted = .ok ['d'] := by decide
  obtain rfl := Except.ok.inj (hselected.symm.trans hcs)
  obtain rfl := Except.ok.inj (htext.symm.trans hcs')
  revert htrim
  decide

end TreePointer.Address
