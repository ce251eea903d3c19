import TreePointer.Proofs.Address.Check
import TreePointer.Proofs.Address.Offsets
import TreePointer.Proofs.Address.Reach
import TreePointer.Proofs.Address.Simulation
import TreePointer.Proofs.Decoration.Run

/-!
# Addresses mean the same in a decorated document

The nodes an evaluation comes to were there before the decoration, and of those the decorated forest
tells the same. Its ranges may have other containers, but they have their ends at the same offsets
in the visible text. So the evaluation of any address goes alike in both forests.

* `Range.Alongside`: ranges of two forests at the same offsets.
* `Faithful.alike`: a faithful decoration answers an evaluation alike.
* `evaluate_decorated`: every address gives the same, before and after any run of the decoration.
-/

namespace TreePointer

/-- Ranges of two forests whose ends have the same numbers of visible characters before them. -/
def Range.Alongside (f g : Forest) (r : Node) (s s' : Range) : Prop :=
  ∃ k m, s.At f r k m ∧ s'.At g r k m

namespace Decoration

open Forest

variable {f : Forest} {d : Document} {s : State}

namespace Faithful

variable (hd : d.Rooted f) (h : Faithful f d s)

include hd h

theorem within {n : Node} (hn : f.Within d.root n) : s.forest.Within d.root n :=
  h.transparent.within hd.wellFormed h.rooted.wellFormed hd.has_root hn

theorem tagOf?_eq {n : Node} (hn : d.Reaches f n) : d.tagOf? s.forest n = d.tagOf? f n := by
  have hhas := hd.wellFormed.has_of_within hd.has_root hn.1
  exact Document.tagOf?_congr (h.transparent.content_eq n hhas hn.2)

omit hd in
/-- What was made has no id. -/
theorem elementById?_eq (id : String) : d.elementById? s.forest id = d.elementById? f id :=
  Document.elementById?_congr h.transparent.order_eq (fun _ hn => h.transparent.isElement_eq hn)
    (fun n hn => h.transparent.content_eq n (has_of_isElement hn) (not_isText_of_isElement hn))
    h.transparent.id_new id

theorem rangeAround_agrees {n : Node} (hn : d.Reaches f n) :
    Agrees (Range.Alongside f s.forest d.root) (Location.rangeAround f n)
      (Location.rangeAround s.forest n) := by
  have wf := hd.wellFormed
  have wf' := h.rooted.wellFormed
  have hr := hd.has_root
  have hr' := h.rooted.has_root
  by_cases hroot : n = d.root
  · subst hroot
    -- the first elements may be different, but have one extent
    have hfirst := h.transparent.first_eq
    rw [wf.rangeAround_of_top hd.parent_root, wf'.rangeAround_of_top h.rooted.parent_root]
    cases he : f.firstElement? d.root with
    | none =>
      rw [he, Option.map_none, Option.map_eq_none_iff] at hfirst
      rw [hfirst]
      exact .error _
    | some e =>
      rw [he, Option.map_some, Option.map_eq_some_iff] at hfirst
      obtain ⟨e', he', hextent⟩ := hfirst
      rw [extent, extent, Prod.mk.injEq] at hextent
      have hmem := List.mem_of_find?_eq_some he
      have hmem' := List.mem_of_find?_eq_some he'
      obtain ⟨t, ht, hat⟩ :=
        wf.around_at hr (wf.within_child (.refl f _) hmem) (wf.ne_of_mem_children hmem)
      obtain ⟨t', ht', hat'⟩ :=
        wf'.around_at hr' (wf'.within_child (.refl _ _) hmem') (wf'.ne_of_mem_children hmem')
      rw [hextent.1, hextent.2] at hat'
      rw [he']
      dsimp only
      rw [ht, ht']
      exact .ok ⟨_, _, hat, hat'⟩
  · obtain ⟨t, ht, hat⟩ := wf.around_at hr hn.1 hroot
    obtain ⟨t', ht', hat'⟩ := wf'.around_at hr' (h.within hd hn.1) hroot
    rw [h.transparent.start_eq n hn.1,
      h.transparent.chars_eq n (wf.has_of_within hr hn.1) hn.2] at hat'
    rw [ht, ht']
    exact .ok ⟨_, _, hat, hat'⟩

theorem make_agrees {a b a' b' : Range} (ha : Range.Alongside f s.forest d.root a a')
    (hb : Range.Alongside f s.forest d.root b b') :
    Agrees (Range.Alongside f s.forest d.root) (Range.make f a.start b.stop)
      (Range.make s.forest a'.start b'.stop) := by
  obtain ⟨k, m, hak, hak'⟩ := ha
  obtain ⟨k', m', hbk, hbk'⟩ := hb
  obtain ⟨t, ht, hat⟩ := hd.wellFormed.make_at hd.has_root hak.start hbk.stop
  obtain ⟨t', ht', hat'⟩ := h.rooted.wellFormed.make_at h.rooted.has_root hak'.start hbk'.stop
  rw [ht, ht']
  exact .ok ⟨_, _, hat, hat'⟩

theorem stringRange_agrees {n : Node} (hn : d.Reaches f n) (start length : Nat) :
    Agrees (Option.Rel (Range.Alongside f s.forest d.root)) (f.stringRange n start length)
      (s.forest.stringRange n start length) := by
  obtain ⟨found, hfound, hat⟩ :=
    hd.wellFormed.stringRange_at hd.has_root hn.1 start length
  obtain ⟨found', hfound', hat'⟩ :=
    h.rooted.wellFormed.stringRange_at h.rooted.has_root (h.within hd hn.1) start length
  rw [h.transparent.start_eq n hn.1,
    h.transparent.chars_eq n (hd.wellFormed.has_of_within hd.has_root hn.1) hn.2] at hat'
  rw [hfound, hfound']
  refine .ok ?_
  generalize stretch? (f.visibleChars n) (max start 1) length = stretch at hat hat'
  cases hat with
  | none =>
    cases hat'
    exact .none
  | some hat =>
    cases hat' with
    | some hat' => exact .some ⟨_, _, hat, hat'⟩

/-- **A faithful decoration** answers an evaluation alike. -/
theorem alike : Alike f s.forest d (d.Reaches f) (Range.Alongside f s.forest d.root) := by
  have hhas : ∀ {n}, d.Reaches f n → f.Has n := fun hn =>
    hd.wellFormed.has_of_within hd.has_root hn.1
  refine ⟨hd.reaches_root, fun n hn => h.transparent.isElement_eq (hhas hn),
    fun n hn => h.tagOf?_eq hd hn, fun p hp => h.transparent.elements_eq p (hhas hp),
    fun p c hp => hd.reaches_element hp, fun n hn => h.transparent.parent_eq n (hhas hn),
    fun n p hn => hd.reaches_effectiveParent hn.1, h.elementById?_eq,
    fun id n => hd.reaches_elementById, fun n hn => h.rangeAround_agrees hd hn,
    fun r r' s s' hr hs => h.make_agrees hd hr hs, fun r r' toStart hr => ?_,
    fun n start length hn => h.stringRange_agrees hd hn start length⟩
  obtain ⟨k, m, hat, hat'⟩ := hr
  exact ⟨_, _, hat.collapse toStart, hat'.collapse toStart⟩

end Faithful

/-- **Decoration is transparent to every address.** Before and after any run of the decoration an
address is refused with one fault, or gives the same nodes and values, and ranges whose ends have
the same numbers of visible characters before them. -/
theorem evaluate_decorated (hd : d.Rooted f) (h : Decorated f s) (o : Options) (address : String) :
    Agrees (Context.Matches (d.Reaches f) (Range.Alongside f s.forest d.root))
      (Address.evaluate f d o address) (Address.evaluate s.forest d o address) :=
  Address.evaluate_agrees ((h.faithful hd).alike hd) o address

/-- The document `<r><p>ab cd</p></r>`. -/
def plain : Forest := ⟨#[
  { Record.bare .document with children := [⟨1⟩] },
  { Record.bare .element with
    name := some (.plain "r"), parent := some ⟨0⟩, children := [⟨2⟩] },
  { Record.bare .element with
    name := some (.plain "p"), parent := some ⟨1⟩, children := [⟨3⟩] },
  { Record.bare .text with value := some "ab cd", parent := some ⟨2⟩ }]⟩

theorem plain_rooted : Document.Rooted plain ⟨⟨0⟩, .xml⟩ := by decide

/-- The document `<r><b><p>ab <i>note</i>cd</p></b></r>`, where `b` and `i` have both marks. -/
def adorned : Forest := ⟨#[
  { Record.bare .document with children := [⟨1⟩] },
  { Record.bare .element with
    name := some (.plain "r"), parent := some ⟨0⟩, children := [⟨4⟩] },
  { Record.bare .element with
    name := some (.plain "p"), parent := some ⟨4⟩, children := [⟨3⟩, ⟨6⟩, ⟨5⟩] },
  { Record.bare .text with value := some "ab ", parent := some ⟨2⟩ },
  { markedRecord "b" with parent := some ⟨1⟩, children := [⟨2⟩] },
  { Record.bare .text with value := some "cd", parent := some ⟨2⟩ },
  { markedRecord "i" with parent := some ⟨2⟩, children := [⟨7⟩] },
  { Record.bare .text with value := some "note", parent := some ⟨6⟩ }]⟩

/-- The paragraph is wrapped, its text cut before the `c`, and a note written into the mark. -/
theorem plain_adorned : ∃ s, Decorated plain s ∧ s.forest = adorned ∧
    s.piece ⟨3⟩ = some (⟨3⟩, 0) ∧ s.piece ⟨5⟩ = some (⟨3⟩, 3) := by
  have hwrap : Decorated plain _ := .tail .refl (.wrap ⟨2⟩ "b" (by decide) rfl)
  have hmark : Decorated plain _ :=
    hwrap.tail (.mark (p := ⟨2⟩) ⟨3⟩ 3 "i" (by decide) (by decide)
      (by decide) rfl)
  have hwrite : Decorated plain _ := hmark.tail (.write ⟨6⟩ "note" (by decide) rfl)
  exact ⟨_, hwrite, by decide, by decide, by decide⟩

/-- The stretch from the `b` to the `c` is in one text before and ends in another one after. -/
theorem evaluate_decorated_adorned :
    (Address.evaluate plain ⟨⟨0⟩, .xml⟩ .standard "string-range(/r[1]/p[1], \"\", 2, 3)").toOption
        = some [.range ⟨⟨⟨3⟩, 1⟩, ⟨⟨3⟩, 4⟩⟩] ∧
      (Address.evaluate adorned ⟨⟨0⟩, .xml⟩ .standard
        "string-range(/r[1]/p[1], \"\", 2, 3)").toOption = some [.range ⟨⟨⟨3⟩, 1⟩, ⟨⟨5⟩, 1⟩⟩] ∧
      Agrees (Context.Matches (Document.Reaches plain ⟨⟨0⟩, .xml⟩)
          (Range.Alongside plain adorned ⟨0⟩))
        (Address.evaluate plain ⟨⟨0⟩, .xml⟩ .standard "string-range(/r[1]/p[1], \"\", 2, 3)")
        (Address.evaluate adorned ⟨⟨0⟩, .xml⟩ .standard
          "string-range(/r[1]/p[1], \"\", 2, 3)") := by
  obtain ⟨s, hs, hforest, -⟩ := plain_adorned
  refine ⟨by decide +kernel, by decide +kernel, ?_⟩
  rw [← hforest]
  exact evaluate_decorated plain_rooted hs .standard _

end Decoration

end TreePointer
