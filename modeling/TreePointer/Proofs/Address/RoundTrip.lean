import TreePointer.Proofs.Address.Check
import TreePointer.Proofs.Address.TextSelection

/-!
# A stretch between counted characters comes back exactly

A number in an address says which counted character is meant. A stretch of text that begins before
a counted character and ends behind one is therefore found again to the boundary, whatever marks the
document carries.

* `roundTrip_of_counted`: the address of such a stretch is resolved to the stretch itself.
* `not_roundTrip_starred`: an element that is named like the wildcard is taken for any other.
-/

namespace TreePointer

/-- Whether the character behind a boundary is counted in the text of an element. -/
def Document.CountedAfter (f : Forest) (p : Node) (b : Boundary) : Prop :=
  b.offset < f.length b.container ∧ Counter.IsCounted (f.visibleChars p) (f.textOffset p b)

/-- Whether the character in front of a boundary is counted in the text of an element. -/
def Document.CountedBefore (f : Forest) (p : Node) (b : Boundary) : Prop :=
  0 < b.offset ∧
    Counter.IsCounted (f.visibleChars p) (f.textOffset p ⟨b.container, b.offset - 1⟩)

namespace Address

variable {f : Forest} {d : Document} {o o' : Options} {a b : Boundary} {p q : Node}

/-! ## Counted characters next to a boundary -/

section Counted

variable (hd : d.Rooted f)

include hd

theorem getElem?_places_of_inText (h : d.InText f b p) (hlt : b.offset < f.length b.container) :
    ∃ c, (f.places p)[f.textOffset p b]? = some ⟨c, b.container, b.offset⟩ := by
  have wf := hd.wellFormed
  rw [h.length_eq] at hlt
  have hp := wf.has_of_within hd.has_root (h.within_parent hd)
  exact ⟨_, wf.getElem?_places hp (Or.inr (h.mem_ancestors wf)) h.isShown
    (List.getElem?_eq_getElem hlt)⟩

/-- The number for a start before a counted character finds that character. -/
theorem counted_after (h : d.InText f a p) (hc : Document.CountedAfter f p a) :
    (f.countedIndices p)[countIn f p a]? = some (f.textOffset p a) ∧
      ∃ c, (f.places p)[f.textOffset p a]? = some ⟨c, a.container, a.offset⟩ :=
  ⟨Counter.getElem?_countTo_of_mem (Counter.mem_indices_iff.mpr hc.2),
    getElem?_places_of_inText hd h hc.1⟩

/-- The number for an end behind a counted character is the number of that character. -/
theorem counted_before (h : d.InText f b q) (hc : Document.CountedBefore f q b) :
    ∃ k c, countIn f q b = k + 1 ∧
      (f.countedIndices q)[k]? = some (f.textOffset q ⟨b.container, b.offset - 1⟩) ∧
      (f.places q)[f.textOffset q ⟨b.container, b.offset - 1⟩]?
        = some ⟨c, b.container, b.offset - 1⟩ := by
  obtain ⟨t, j⟩ := b
  obtain ⟨hpos, hcounted⟩ := hc
  cases j with
  | zero => exact absurd hpos (Nat.lt_irrefl 0)
  | succ j =>
    have wf := hd.wellFormed
    have hq := wf.has_of_within hd.has_root (h.within_parent hd)
    have hmem := Counter.mem_indices_iff.mpr hcounted
    have hlast : d.InText f ⟨t, j⟩ q :=
      ⟨h.within, h.isText, h.parent, h.isElement, h.unmarked, Nat.le_trans (Nat.le_succ j) h.inBounds⟩
    obtain ⟨c, hplace⟩ := getElem?_places_of_inText hd hlast h.inBounds
    have hoffset : f.textOffset q ⟨t, j + 1⟩ = f.textOffset q ⟨t, j⟩ + 1 :=
      (wf.textOffset_place hq hplace).1 ▸ (wf.textOffset_place hq hplace).2
    refine ⟨countIn f q ⟨t, j⟩, c, ?_, Counter.getElem?_countTo_of_mem hmem, hplace⟩
    rw [countIn, hoffset]
    exact Counter.countTo_succ_of_mem hmem

end Counted

/-! ## Boundaries that stay where they are -/

theorem settleStart_of_lt (h : b.offset < f.length b.container) : settleStart f b = b := by
  rw [settleStart, if_neg (Nat.ne_of_lt h)]

theorem settleEnd_of_pos (h : 0 < b.offset) : settleEnd f b = b := by
  rw [settleEnd, if_neg (Nat.ne_of_gt h)]

/-! ## The two shapes of an address -/

theorem after_of_counted {c : Char} (hpos : 0 < b.offset) :
    (Place.mk c b.container (b.offset - 1)).after = b := by
  rw [Place.after, Nat.sub_add_cancel hpos]

section Shapes

variable (hd : d.Rooted f) (hsole : d.IsSole f) (hlex : d.Lexable f) (hstar : d.NoWildcard f)

include hd hsole hlex hstar

/-- A stretch in the text of one element is given by a start and a length. -/
theorem textStretch_of_counted (ha : d.InText f a p) (hb : d.InText f b p)
    (hstart : Document.CountedAfter f p a) (hstop : Document.CountedBefore f p b)
    (hab : a.compare f b = .ok .lt)
    (hchars : (f.visibleChars p).length < Binary64.exactBound) :
    ∃ text, textStretch f d o a b = .ok text ∧ Denotes f d text "string-range" ⟨a, b⟩ := by
  have wf := hd.wellFormed
  have hp := wf.has_of_within hd.has_root (ha.within_parent hd)
  obtain ⟨hi, c, hplace⟩ := counted_after hd ha hstart
  obtain ⟨k, c', hk, hj, hplace'⟩ := counted_before hd hb hstop
  have hstopOffset := (wf.textOffset_place hp hplace').2
  rw [after_of_counted hstop.1] at hstopOffset
  have hlt : f.textOffset p a < f.textOffset p b :=
    wf.lt_textOffset hp (Or.inr (hb.mem_ancestors wf)) hplace hab
  have hle : countIn f p a ≤ k := by
    rcases Nat.lt_or_ge k (countIn f p a) with hkn | hge
    · have hback := Counter.getElem?_indices_lt hkn hj hi
      omega
    · exact hge
  have hk' : k < (f.visibleChars p).length :=
    Nat.lt_of_lt_of_le (List.getElem?_eq_some_iff.mp hj).1 (Counter.length_indices_le _ _)
  have hrange := Forest.stringRange_found (s := countIn f p a + 1)
    (l := countIn f p b - countIn f p a) wf hp (by omega) (by omega) hi
    (by rw [show countIn f p a + 1 + (countIn f p b - countIn f p a) - 2 = k by omega]; exact hj)
    hplace hplace'
  rw [after_of_counted hstop.1] at hrange
  exact textStretch_denotes hd hsole hlex hstar ha hb (by omega) (by omega) hrange

/-- The number after the characters before a start gives the start. -/
theorem startPoint_of_counted (ha : d.InText f a p) (hstart : Document.CountedAfter f p a)
    (hchars : (f.visibleChars p).length < Binary64.exactBound) :
    ∃ text, startPoint f d o a = .ok text ∧ Denotes f d text "start-point" (.point a) := by
  obtain ⟨hi, c, hplace⟩ := counted_after hd ha hstart
  have hk : countIn f p a < (f.visibleChars p).length :=
    Nat.lt_of_lt_of_le (List.getElem?_eq_some_iff.mp hi).1 (Counter.length_indices_le _ _)
  exact startPoint_denotes hd hsole hlex hstar ha (by omega)
    (Forest.stringRange_point (Nat.le_add_left 1 _) hi hplace)

/-- The number of the last character before an end gives the end. -/
theorem endPoint_of_counted (hb : d.InText f b q) (hstop : Document.CountedBefore f q b)
    (hchars : (f.visibleChars q).length < Binary64.exactBound) :
    ∃ text, endPoint f d o b = .ok text ∧ Denotes f d text "end-point" (.point b) := by
  have wf := hd.wellFormed
  have hq := wf.has_of_within hd.has_root (hb.within_parent hd)
  obtain ⟨k, c, hk, hj, hplace⟩ := counted_before hd hb hstop
  have hlt : k < (f.visibleChars q).length :=
    Nat.lt_of_lt_of_le (List.getElem?_eq_some_iff.mp hj).1 (Counter.length_indices_le _ _)
  have hrange := Forest.stringRange_found (s := countIn f q b) (l := 1) wf hq (by omega)
    (Nat.le_refl 1) (by rw [hk]; exact hj) (by rw [hk]; exact hj) hplace hplace
  have hpoint := endPoint_denotes (o := o) hd hsole hlex hstar hb (by omega)
    (by rw [if_neg (by omega)]; exact hrange)
  rw [Range.collapse, after_of_counted hstop.1] at hpoint
  exact hpoint

/-- **A stretch from a counted character through a counted character** survives being written as an
address and read again, in whatever order its ends were set. -/
theorem roundTrip_of_counted
    (hchars : ∀ n, f.Within d.root n → (f.visibleChars n).length < Binary64.exactBound)
    (ha : d.InText f a p) (hb : d.InText f b q) (hstart : Document.CountedAfter f p a)
    (hstop : Document.CountedBefore f q b) (hab : a.compare f b = .ok .lt) {s : Selection}
    (hs : s.Spans a b) :
    ∃ address, create f d o s = .ok address ∧ resolve f d o' address = .ok ⟨a, b⟩ := by
  have wf := hd.wellFormed
  have hp := hchars p (ha.within_parent hd)
  have hq := hchars q (hb.within_parent hd)
  rw [create_texts hd ha hb hab hs]
  simp only [betweenTexts, settleStart_of_lt hstart.1, settleEnd_of_pos hstop.1, hab,
    ha.elementAbove wf, hb.elementAbove wf, bind, Except.bind]
  by_cases hpq : p = q
  · subst hpq
    obtain ⟨text, htext, hdenotes⟩ :=
      textStretch_of_counted (o := o) hd hsole hlex hstar ha hb hstart hstop hab hp
    rw [if_pos (Or.inr rfl), htext]
    exact ⟨wrapped o text, rfl, hdenotes.resolve rfl (by decide)⟩
  · have hne : a.container ≠ b.container := by
      intro e
      have hparent := ha.parent
      rw [e, hb.parent, Option.some.injEq] at hparent
      exact hpq hparent.symm
    obtain ⟨first, hfirst, hdenotes⟩ :=
      startPoint_of_counted (o := o) hd hsole hlex hstar ha hstart hp
    obtain ⟨last, hlast, hdenotes'⟩ :=
      endPoint_of_counted (o := o) hd hsole hlex hstar hb hstop hq
    have hmake : Range.make f a b = .ok ⟨a, b⟩ :=
      Range.make_of_le ha.inBounds hb.inBounds hab (by decide)
    rw [if_neg (not_or.mpr ⟨hne, hpq⟩)]
    simp only [hfirst, hlast]
    exact ⟨_, rfl, hdenotes.resolve_rangeTo hdenotes' rfl rfl (by decide) (by decide) hmake⟩

end Shapes

/-! ## A decorated document -/

/-- The document `<r><p id="x">ab <m>note</m> cd</p><q>ef</q></r>`, where `m` has both marks. -/
def noted : Forest := ⟨#[
  { Record.bare .document with children := [⟨1⟩] },
  { Record.bare .element with
    name := some (.plain "r"), parent := some ⟨0⟩, children := [⟨2⟩, ⟨7⟩] },
  { Record.bare .element with
    name := some (.plain "p"), attributes := [⟨.plain "id", "x"⟩], parent := some ⟨1⟩
    children := [⟨3⟩, ⟨4⟩, ⟨6⟩] },
  { Record.bare .text with value := some "ab ", parent := some ⟨2⟩ },
  { Record.bare .element with
    name := some (.plain "m"), parent := some ⟨2⟩, children := [⟨5⟩]
    attributes := [⟨⟨none, "_dom_ignore_element_", some Mark.uri⟩, "true"⟩,
      ⟨⟨none, "_dom_hide_element_", some Mark.uri⟩, "true"⟩] },
  { Record.bare .text with value := some "note", parent := some ⟨4⟩ },
  { Record.bare .text with value := some " cd", parent := some ⟨2⟩ },
  { Record.bare .element with
    name := some (.plain "q"), parent := some ⟨1⟩, children := [⟨8⟩] },
  { Record.bare .text with value := some "ef", parent := some ⟨7⟩ }]⟩

theorem noted_rooted : Document.Rooted noted ⟨⟨0⟩, .xml⟩ := by decide

/-- From the `c` behind the note to the `e` in the next element. -/
theorem roundTrip_noted :
    ∃ address, create noted ⟨⟨0⟩, .xml⟩ .standard (.anchorFocus ⟨⟨8⟩, 1⟩ ⟨⟨6⟩, 1⟩) = .ok address ∧
      resolve noted ⟨⟨0⟩, .xml⟩ .standard address = .ok ⟨⟨⟨6⟩, 1⟩, ⟨⟨8⟩, 1⟩⟩ :=
  roundTrip_of_counted (p := ⟨2⟩) (q := ⟨7⟩) noted_rooted
    (noted_rooted.isSole_of_check (by decide))
    (noted_rooted.lexable_of_check (by decide))
    (noted_rooted.noWildcard_of_check (by decide))
    (noted_rooted.forall_within (by decide))
    ⟨by decide, by decide, by decide, by decide, by decide, by decide⟩
    ⟨by decide, by decide, by decide, by decide, by decide, by decide⟩
    ⟨by decide, Counter.mem_indices_iff.mp (by decide)⟩
    ⟨by decide, Counter.mem_indices_iff.mp (by decide)⟩
    (Boundary.isBefore_iff.mp (by decide)) (.inr (.inr rfl))

/-! ## An element that is named like the wildcard -/

/-- The document `<r><a>x</a><*>y</*></r>`. -/
def starred : Forest := ⟨#[
  { Record.bare .document with children := [⟨1⟩] },
  { Record.bare .element with
    name := some (.plain "r"), parent := some ⟨0⟩, children := [⟨2⟩, ⟨4⟩] },
  { Record.bare .element with
    name := some (.plain "a"), parent := some ⟨1⟩, children := [⟨3⟩] },
  { Record.bare .text with value := some "x", parent := some ⟨2⟩ },
  { Record.bare .element with
    name := some (.plain "*"), parent := some ⟨1⟩, children := [⟨5⟩] },
  { Record.bare .text with value := some "y", parent := some ⟨4⟩ }]⟩

theorem starred_rooted : Document.Rooted starred ⟨⟨0⟩, .xml⟩ := by decide

/-- The step to an element of the name `*` is read as a step to any element, so that a stretch of
its text comes back as a stretch of another one. -/
theorem not_roundTrip_starred :
    ¬ ∀ (f : Forest) (d : Document) (o : Options) (a b : Boundary) (p q : Node) (s : Selection),
      d.Rooted f → d.IsSole f → d.Lexable f →
      (∀ n, f.Within d.root n → (f.visibleChars n).length < Binary64.exactBound) →
      d.InText f a p → d.InText f b q → Document.CountedAfter f p a →
      Document.CountedBefore f q b → a.compare f b = .ok .lt → s.Spans a b →
      ∃ address, create f d o s = .ok address ∧ resolve f d o address = .ok ⟨a, b⟩ := by
  intro h
  obtain ⟨address, hcreate, hresolve⟩ := h starred ⟨⟨0⟩, .xml⟩ .standard ⟨⟨5⟩, 0⟩ ⟨⟨5⟩, 1⟩ ⟨4⟩ ⟨4⟩
    (.anchorFocus ⟨⟨5⟩, 0⟩ ⟨⟨5⟩, 1⟩) starred_rooted
    (starred_rooted.isSole_of_check (by decide))
    (starred_rooted.lexable_of_check (by decide))
    (starred_rooted.forall_within (by decide))
    ⟨by decide, by decide, by decide, by decide, by decide, by decide⟩
    ⟨by decide, by decide, by decide, by decide, by decide, by decide⟩
    ⟨by decide, Counter.mem_indices_iff.mp (by decide)⟩
    ⟨by decide, Counter.mem_indices_iff.mp (by decide)⟩
    (Boundary.isBefore_iff.mp (by decide)) (.inr (.inl rfl))
  have hmade : (create starred ⟨⟨0⟩, .xml⟩ .standard (.anchorFocus ⟨⟨5⟩, 0⟩ ⟨⟨5⟩, 1⟩)).toOption
      = some "xpointer(string-range(/r[1]/*[1], \"\", 1, 1))" := by decide
  rw [hcreate, Except.toOption, Option.some.injEq] at hmade
  have hfound : (resolve starred ⟨⟨0⟩, .xml⟩ .standard
      "xpointer(string-range(/r[1]/*[1], \"\", 1, 1))").toOption
      = some ⟨⟨⟨3⟩, 0⟩, ⟨⟨3⟩, 1⟩⟩ := by decide +kernel
  rw [← hmade, hresolve, Except.toOption, Option.some.injEq] at hfound
  revert hfound
  decide

end Address

end TreePointer
