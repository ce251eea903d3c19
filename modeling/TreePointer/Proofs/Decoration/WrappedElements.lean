import TreePointer.Proofs.Address.PastMarked
import TreePointer.Proofs.Address.Phrase
import TreePointer.Proofs.Decoration.Paths

/-!
# Selections in a document with wrapped elements

A wrapper around an element is transparent to addresses, but not to the ends of a selection: an end
in a wrapper, or a start before one, moves behind it with all that it holds. The address then is
that of another stretch, which begins and ends behind the wrappers.

* `Wrapped`: elements were wrapped, one after the other.
* `Shelled`: what wrapping elements leaves as it was.
* `Faithful.textsShown`, `Faithful.hasOnlyContent`, `Faithful.findable`: the wrapped document is as
  good for addresses as the unmarked one.
* `resolve_wrapped_elements`: what comes back of a selection.
* `not_resolve_wrapped_elements`: the selection of a wrapped element leads to nothing.
-/

namespace TreePointer

namespace Forest

variable {f g k : Forest}

/-- An element was wrapped, or the wrapping was refused. -/
def Wraps (f g : Forest) : Prop := ∃ n tag, f.isElement n = true ∧ (f.wrap n tag).2 = g

/-- Elements were wrapped, one after the other. -/
def Wrapped : Forest → Forest → Prop := Relation.ReflTransGen Wraps

/-- The nodes there were have the same content, the texts among them are in the same places, and all
other nodes are ignored. -/
structure Shelled (f g : Forest) : Prop where
  has : ∀ n, f.Has n → g.Has n
  content_eq : ∀ n, f.Has n → g.content n = f.content n
  parent_eq : ∀ t, f.isText t = true → g.parent t = f.parent t
  ignored_new : ∀ n, g.Has n → ¬ f.Has n → g.isIgnored n = true

namespace Shelled

theorem refl (f : Forest) : Shelled f f :=
  ⟨fun _ => id, fun _ _ => rfl, fun _ _ => rfl, fun _ h h' => absurd h h'⟩

theorem trans (h : Shelled f g) (h' : Shelled g k) : Shelled f k := by
  refine ⟨fun n hn => h'.has n (h.has n hn),
    fun n hn => (h'.content_eq n (h.has n hn)).trans (h.content_eq n hn), fun t ht => ?_,
    fun n hn hnot => ?_⟩
  · have ht' := (isText_congr (h.content_eq t (has_of_isText ht))).trans ht
    exact (h'.parent_eq t ht').trans (h.parent_eq t ht)
  · by_cases hg : g.Has n
    · exact (isIgnored_congr (h'.content_eq n hg)).trans (h.ignored_new n hg hnot)
    · exact h'.ignored_new n hn hg

/-- A text is not new. -/
theorem has_of_isText (h : Shelled f g) {t : Node} (ht : g.isText t = true) : f.Has t := by
  by_contra hnot
  have helement := isElement_of_isIgnored (h.ignored_new t (Forest.has_of_isText ht) hnot)
  rw [not_isText_of_isElement helement] at ht
  cases ht

end Shelled

/-- **Wrapping an element** puts a shell around it. -/
theorem Wraps.shelled (wf : f.WellFormed) (h : Wraps f g) : Shelled f g := by
  obtain ⟨n, tag, helement, rfl⟩ := h
  cases hp : f.parent n with
  | none =>
    rw [wrap_refused hp]
    exact .refl f
  | some p =>
    obtain ⟨left, right, hsplit⟩ := List.append_of_mem (wf.mem_of_parent hp)
    obtain ⟨g, hwrap, hr, hhas, hmarked, -, hcontent⟩ := wrap_eq wf hsplit tag
    rw [hwrap]
    refine ⟨hr.has, fun m hm => ?_, fun t ht => ?_, fun m hm hnot => ?_⟩
    · by_cases hmn : m = n
      · rw [hmn, hcontent]
      · exact hr.content_eq m hm fun e => hmn (List.mem_singleton.mp e)
    · refine hr.parent_eq t (has_of_isText ht) fun e => ?_
      rw [List.mem_singleton.mp e, not_isText_of_isElement helement] at ht
      cases ht
    · obtain hold | rfl := (hhas m).mp hm
      · exact absurd hold hnot
      · exact isIgnored_of_marked hmarked

end Forest

namespace Decoration

open Forest Address

variable {f g : Forest} {d : Document} {s : State} {o : Options} {n : Node}

/-- **Wrapping elements is a decoration**, and puts shells around them. -/
theorem faithful_of_wrapped (hd : d.Rooted f) (h : Wrapped f g) :
    ∃ s, Faithful f d s ∧ Shelled f s.forest ∧ s.forest = g := by
  induction h with
  | refl => exact ⟨_, .start hd, .refl f, rfl⟩
  | @tail g k _ hwrap ih =>
    obtain ⟨s, hs, hshell, rfl⟩ := ih
    have hshell' := hshell.trans (hwrap.shelled hs.rooted.wellFormed)
    obtain ⟨n, tag, helement, rfl⟩ := hwrap
    exact ⟨_, hs.step hd (.wrap n tag helement rfl), hshell', rfl⟩

namespace Faithful

variable (hd : d.Rooted f) (hs : Faithful f d s) (h : Shelled f s.forest)

include hd hs

/-- The old nodes in the document were in it before. -/
theorem within_of_has (hn : s.forest.Within d.root n) (hhas : f.Has n) : f.Within d.root n := by
  have hmem := (hs.rooted.wellFormed.mem_preorder_iff hs.rooted.has_root).mpr hn
  rw [← hd.wellFormed.mem_preorder_iff hd.has_root, ← hs.transparent.order_eq]
  exact List.mem_filter.mpr ⟨hmem, decide_eq_true hhas⟩

/-- Routes lead to the same elements. -/
theorem sameWays : d.SameWays f s.forest := by
  have hhas : ∀ n, d.Reaches f n → f.Has n := fun n hn =>
    hd.wellFormed.has_of_within hd.has_root hn.1
  exact ⟨fun n hn => hs.transparent.isElement_eq (hhas n hn), fun n hn => hs.tagOf?_eq hd hn,
    fun n hn => hs.transparent.elements_eq n (hhas n hn), hs.elementById?_eq⟩

include h

/-- The texts of the document are in elements without marks. -/
theorem parent_of_text (hunmarked : d.IsUnmarked f) (htext : d.TextInElements f) {t : Node}
    (ht : s.forest.Within d.root t) (h' : s.forest.isText t = true) : ∃ p,
    s.forest.parent t = some p ∧ s.forest.isElement p = true ∧ s.forest.isMarked p = false := by
  have hhas := h.has_of_isText h'
  have hwithin := hs.within_of_has hd ht hhas
  rw [isText_congr (h.content_eq t hhas)] at h'
  obtain ⟨p, hp, hpr⟩ := hd.exists_parent_of_isText hwithin h'
  have hcontent := h.content_eq p (hd.wellFormed.has_of_within hd.has_root hpr)
  refine ⟨p, (h.parent_eq t h').trans hp,
    (isElement_congr hcontent).trans (htext t p hwithin h' hp), ?_⟩
  rw [isMarked_congr hcontent, hunmarked p hpr]

theorem textsShown (hunmarked : d.IsUnmarked f) (htext : d.TextInElements f) :
    d.TextsShown s.forest := by
  intro t ht h'
  obtain ⟨p, hp, -, hmarked⟩ := hs.parent_of_text hd h hunmarked htext ht h'
  rw [isShown_of_parent hp, h', hmarked]
  rfl

theorem textInElements (hunmarked : d.IsUnmarked f) (htext : d.TextInElements f) :
    d.TextInElements s.forest := by
  intro t p ht h' hp
  obtain ⟨q, hq, helement, -⟩ := hs.parent_of_text hd h hunmarked htext ht h'
  rw [hq, Option.some.injEq] at hp
  exact hp ▸ helement

theorem hasOnlyContent (hcontent : d.HasOnlyContent f) : d.HasOnlyContent s.forest := by
  intro n hn hne
  by_cases hhas : f.Has n
  · have hold := hcontent n (hs.within_of_has hd hn hhas) hne
    have hsame := h.content_eq n hhas
    rwa [isContent, isText_congr hsame, isElement_congr hsame]
  · have hnew := hs.rooted.wellFormed.has_of_within hs.rooted.has_root hn
    rw [isContent, isElement_of_isIgnored (h.ignored_new n hnew hhas), Bool.or_true]

/-- An element that is not ignored was there before. -/
theorem isElementOf_old (hn : IsElementOf s.forest d n) (hi : s.forest.isIgnored n = false) :
    IsElementOf f d n := by
  have hnew := has_of_isElement hn.2
  have hhas : f.Has n := by
    by_contra hnot
    rw [h.ignored_new n hnew hnot] at hi
    cases hi
  exact ⟨hs.within_of_has hd hn.1 hhas, (isElement_congr (h.content_eq n hhas)).symm.trans hn.2⟩

/-- An element that has an address is found by it, as it was before. -/
theorem findable (hlex : d.Lexable f) (hstar : d.NoWildcard f) :
    Findable s.forest d o := by
  intro e path he hpath
  cases hi : s.forest.isIgnored e with
  | true =>
    -- a wrapper has no address
    rw [elementPath_of_ignored_eq hs.rooted he hi, tagOf] at hpath
    split at hpath <;> cases hpath
  | false =>
    have hold := hs.isElementOf_old hd h he hi
    rw [hs.elementPath_eq hd hold.1 hold.2] at hpath
    obtain ⟨r, hchars, hlegible, hnode⟩ := elementPath_route hd hlex hold.1 hold.2 hpath
    have hfinds := Route.finds hlegible s.forest d
    rw [(hs.sameWays hd).node?_eq hd r, hnode hstar] at hfinds
    rwa [hchars]

theorem length_visibleChars_lt
    (hchars : ∀ n, f.Within d.root n → (f.visibleChars n).length + 1 < Binary64.exactBound)
    (hn : IsElementOf s.forest d n) (hi : s.forest.isIgnored n = false) :
    (s.forest.visibleChars n).length + 1 < Binary64.exactBound := by
  have hold := hs.isElementOf_old hd h hn hi
  rw [hs.transparent.chars_eq n (has_of_isElement hold.2) (not_isText_of_isElement hold.2)]
  exact hchars n hold.1

end Faithful

end Decoration

namespace Address

open Forest

variable {f g : Forest} {d : Document} {o o' : Options} {a b : Boundary}

/-- The range has the visible content between two boundaries, but for blanks. -/
def HasContent (f : Forest) (r : Node) (found : Range) (a b : Boundary) : Prop :=
  SameContent (f.visibleChars r) (f.textOffset r found.start) (f.textOffset r found.stop)
    (f.textOffset r a) (f.textOffset r b)

/-- **What comes back of a selection in a document with wrapped elements** is what lies past the
wrappers at its ends. The ends of that are not before those of the selection. If both are in one
wrapper, and anything comes behind it, then nothing comes back. -/
theorem resolve_wrapped_elements (hd : d.Rooted f) (hunmarked : d.IsUnmarked f)
    (htext : d.TextInElements f) (hcontent : d.HasOnlyContent f) (hlex : d.Lexable f)
    (hstar : d.NoWildcard f)
    (hchars : ∀ n, f.Within d.root n → (f.visibleChars n).length + 1 < Binary64.exactBound)
    (hw : Wrapped f g) (ha : g.Within d.root a.container) (hai : a.InBounds g)
    (hb : g.Within d.root b.container) (hbi : b.InBounds g) (hab : a.compare g b = .ok .lt)
    {s : Selection} (hs : s.Spans a b) {address : String} (hcreate : create g d o s = .ok address) :
    ∃ found, resolve g d o' address = .ok found ∧
      HasContent g d.root found (g.pastStart a) (g.pastStop b) ∧
      g.textOffset d.root a ≤ g.textOffset d.root (g.pastStart a) ∧
      g.textOffset d.root b ≤ g.textOffset d.root (g.pastStop b) ∧
      (a.container = b.container → g.isIgnored a.container = true →
        (g.nextUnmarked? a.container).isSome = true → HasContent g d.root found a a) := by
  obtain ⟨t, hfaithful, hshell, rfl⟩ := Decoration.faithful_of_wrapped hd hw
  have hat : a.At t.forest d.root (t.forest.textOffset d.root a) := ⟨ha, hai, rfl⟩
  have hbt : b.At t.forest d.root (t.forest.textOffset d.root b) := ⟨hb, hbi, rfl⟩
  obtain ⟨body, rfl, found, k, m, hresolve, hfound, -, -, hsame⟩ :=
    create_past_marked hfaithful.rooted (hfaithful.hasOnlyContent hd hshell hcontent)
      (hfaithful.textsShown hd hshell hunmarked htext)
      (hfaithful.textInElements hd hshell hunmarked htext)
      (hfaithful.findable hd hshell hlex hstar)
      (fun n => hfaithful.length_visibleChars_lt hd hshell hchars) hat hbt hab
      (ends_of_spans hfaithful.rooted.wellFormed ha hb hai hbi hab hs) hcreate
  rw [← hfound.start.offset_eq, ← hfound.stop.offset_eq] at hsame
  refine ⟨found, hresolve o o', hsame, le_pastStart hfaithful.rooted hat,
    le_pastStop hfaithful.rooted hbt, fun hcontainer hi hnext => ?_⟩
  have hpast : ∀ {b : Boundary} {beside : Option Node}, b.container = a.container →
      t.forest.pastMarked b beside = ⟨a.container, t.forest.length a.container⟩ := by
    intro b beside hb
    refine pastMarked_of_some ?_ hnext
    rw [decorationAt?, hb, if_neg (not_not.mpr (isElement_of_isIgnored hi)), if_pos hi]
  rw [pastStart, pastStop, hpast rfl, hpast hcontainer.symm] at hsame
  exact hsame.trans (.of_le (Nat.le_refl _) (Nat.le_refl _))

/-! ## A wrapped element before a text -/

/-- The document `<r><e>def</e>ghi</r>`. -/
def cited : Forest := ⟨#[
  { Record.bare .document with children := [⟨1⟩] },
  { Record.bare .element with
    name := some (.plain "r"), parent := some ⟨0⟩, children := [⟨2⟩, ⟨4⟩] },
  { Record.bare .element with
    name := some (.plain "e"), parent := some ⟨1⟩, children := [⟨3⟩] },
  { Record.bare .text with value := some "def", parent := some ⟨2⟩ },
  { Record.bare .text with value := some "ghi", parent := some ⟨1⟩ }]⟩

theorem cited_rooted : Document.Rooted cited ⟨⟨0⟩, .xml⟩ := by decide

/-- The document `<r><m><e>def</e></m>ghi</r>`, where `m` has both marks. -/
def citedWrapped : Forest := ⟨#[
  { Record.bare .document with children := [⟨1⟩] },
  { Record.bare .element with
    name := some (.plain "r"), parent := some ⟨0⟩, children := [⟨5⟩, ⟨4⟩] },
  { Record.bare .element with
    name := some (.plain "e"), parent := some ⟨5⟩, children := [⟨3⟩] },
  { Record.bare .text with value := some "def", parent := some ⟨2⟩ },
  { Record.bare .text with value := some "ghi", parent := some ⟨1⟩ },
  { markedRecord "m" with parent := some ⟨1⟩, children := [⟨2⟩] }]⟩

theorem cited_wrapped : Wrapped cited citedWrapped :=
  .single ⟨⟨2⟩, "m", by decide, by decide⟩

/-- The `e` is selected in its wrapper. -/
theorem resolve_wrapped_elements_cited :
    ∃ found, resolve citedWrapped ⟨⟨0⟩, .xml⟩ .standard "xpointer(string-range(/r[1], \"\", 4, 0))"
        = .ok found ∧
      HasContent citedWrapped ⟨0⟩ found (citedWrapped.pastStart ⟨⟨5⟩, 0⟩)
        (citedWrapped.pastStop ⟨⟨5⟩, 1⟩) ∧
      citedWrapped.textOffset ⟨0⟩ ⟨⟨5⟩, 0⟩
        ≤ citedWrapped.textOffset ⟨0⟩ (citedWrapped.pastStart ⟨⟨5⟩, 0⟩) ∧
      citedWrapped.textOffset ⟨0⟩ ⟨⟨5⟩, 1⟩
        ≤ citedWrapped.textOffset ⟨0⟩ (citedWrapped.pastStop ⟨⟨5⟩, 1⟩) ∧
      ((⟨5⟩ : Node) = ⟨5⟩ → citedWrapped.isIgnored ⟨5⟩ = true →
        (citedWrapped.nextUnmarked? ⟨5⟩).isSome = true →
        HasContent citedWrapped ⟨0⟩ found ⟨⟨5⟩, 0⟩ ⟨⟨5⟩, 0⟩) :=
  resolve_wrapped_elements (f := cited) (a := ⟨⟨5⟩, 0⟩) (b := ⟨⟨5⟩, 1⟩) (o := .standard)
    cited_rooted (cited_rooted.forall_within (by decide))
    (cited_rooted.textInElements_of_check (by decide))
    (cited_rooted.forall_within (by decide))
    (cited_rooted.lexable_of_check (by decide))
    (cited_rooted.noWildcard_of_check (by decide))
    (cited_rooted.forall_within (by decide)) cited_wrapped (by decide)
    (by decide) (by decide) (by decide) (by decide) (.inl rfl)
    (by decide)

/-- The address of the wrapped element `e` stands for a point behind it. -/
theorem not_resolve_wrapped_elements :
    ¬ ∀ (f g : Forest) (d : Document) (o : Options) (selected : Range) (address : String),
      d.Rooted f → d.IsSole f → d.IsUnmarked f → d.TextInElements f → d.HasOnlyContent f →
      d.Lexable f → d.NoWildcard f →
      (∀ n, f.Within d.root n → (f.visibleChars n).length + 1 < Binary64.exactBound) →
      Wrapped f g → g.Within d.root selected.start.container → selected.start.InBounds g →
      g.Within d.root selected.stop.container → selected.stop.InBounds g →
      selected.start.compare g selected.stop = .ok .lt →
      g.isElement selected.start.container = true → g.isElement selected.stop.container = true →
      (g.isIgnored selected.start.container = true ∨ g.isIgnored selected.stop.container = true) →
      createFromRange g d o selected = .ok address →
      ∃ found, resolve g d o address = .ok found ∧
        HasContent g d.root found selected.start selected.stop := by
  intro h
  obtain ⟨found, hresolve, hcontent⟩ :=
    h cited citedWrapped ⟨⟨0⟩, .xml⟩ .standard ⟨⟨⟨5⟩, 0⟩, ⟨⟨5⟩, 1⟩⟩
      "xpointer(string-range(/r[1], \"\", 4, 0))" cited_rooted
      (cited_rooted.isSole_of_check (by decide))
      (cited_rooted.forall_within (by decide))
      (cited_rooted.textInElements_of_check (by decide))
      (cited_rooted.forall_within (by decide))
      (cited_rooted.lexable_of_check (by decide))
      (cited_rooted.noWildcard_of_check (by decide))
      (cited_rooted.forall_within (by decide)) cited_wrapped (by decide)
      (by decide) (by decide) (by decide) (by decide)
      (by decide) (by decide) (.inl (by decide)) (by decide)
  have hfound : resolve citedWrapped ⟨⟨0⟩, .xml⟩ .standard
      "xpointer(string-range(/r[1], \"\", 4, 0))" = .ok (.point ⟨⟨4⟩, 0⟩) := by decide +kernel
  obtain rfl := Except.ok.inj (hfound.symm.trans hresolve)
  -- the `d` is selected, and not found
  have hiff := hcontent 0 'd' (by decide) (by decide)
  revert hiff
  decide

end Address

end TreePointer
