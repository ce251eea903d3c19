import TreePointer.Proofs.Text.Slice
import TreePointer.Proofs.Tree.Linear

/-!
# The text of a range is what lies between its boundaries

A character lies between two boundaries if the first is not behind the point before it and the
second not before the point behind it. No text straddles a boundary that it does not hold: seen from
there it is before or behind with all its characters. So a range shows exactly the characters
between its boundaries, of hidden texts as of others, and they are a stretch of the characters of the
tree.

* `Range.holds`: whether a character lies between the boundaries of a range.
* `WellFormed.text_eq_holds`, `WellFormed.text_append`, `WellFormed.text_around`: the text of a range,
  of one range after another, and of the range around a node.
* `WellFormed.range_text`: the three together.
-/

namespace TreePointer

/-- Whether a character lies between the boundaries of a range. -/
def Range.holds (f : Forest) (s : Range) (p : Place) : Bool :=
  s.start.notAfter f p.before && p.after.notAfter f s.stop

namespace Forest

variable {f : Forest} {r n p : Node} {a b c : Boundary}

theorem mem_textPlaces {x : Place} (h : x ∈ f.textPlaces r) :
    x.node ∈ f.preorder r ∧ f.isText x.node = true ∧ x ∈ f.placesOf x.node := by
  obtain ⟨t, ht, hx⟩ := List.mem_flatMap.mp h
  obtain ⟨hmem, htext⟩ := List.mem_filter.mp ht
  obtain rfl := (mem_placesOf.mp hx).1
  exact ⟨hmem, htext, hx⟩

/-- The number of characters of a tree, shown or not, before a boundary. -/
def charsBefore (f : Forest) (r : Node) (b : Boundary) : Nat :=
  ((f.textPlaces r).filter fun x => x.before.isBefore f b).length

namespace WellFormed

variable (wf : f.WellFormed)

include wf

/-! ## Between two boundaries -/

section Whole

variable (hr : f.Has r)

include hr

theorem within_of_mem_textPlaces {x : Place} (h : x ∈ f.textPlaces r) : f.Within r x.node :=
  (wf.mem_preorder_iff hr).mp (mem_textPlaces h).1

/-- Between the two sides of a character there is no other boundary. -/
theorem after_notAfter (hb : f.Within r b.container) {x : Place} (hx : x ∈ f.textPlaces r) :
    x.after.notAfter f b = x.before.isBefore f b := by
  obtain ⟨-, htext, hplace⟩ := mem_textPlaces hx
  rcases wf.text_beside hr hb (wf.within_of_mem_textPlaces hr hx) htext with h | ⟨-, h⟩ | ⟨-, h⟩
  · obtain ⟨t, i⟩ := b
    obtain rfl : x.node = t := h
    have hafter : x.after.compare f ⟨x.node, i⟩ = .ok (compare (x.index + 1) i) :=
      Boundary.compare_same rfl
    rw [isBefore_of_same hplace, Boundary.notAfter_of_compare hafter, Bool.eq_iff_iff,
      Nat.isLE_compare, decide_eq_true_iff]
    exact Nat.succ_le_iff
  · rw [Boundary.notAfter_of_compare (a := x.after) (h _),
      (Boundary.isBefore_iff (a := x.before)).mpr (h _)]
    rfl
  · rw [Boundary.notAfter_of_compare (a := x.after) (h _), Boundary.isBefore, Place.before, h]
    rfl

/-- **The text of a range** are the characters between its boundaries. -/
theorem text_eq_holds (htop : f.parent r = none) {s : Range}
    (hstart : f.Within r s.start.container) (hstop : f.Within r s.stop.container) :
    s.text f = .ok (((f.textPlaces r).filter (s.holds f)).map Place.char) := by
  have hheld : (f.textPlaces r).filter (s.holds f) = (f.textPlaces r).filter
      fun x => !x.before.isBefore f s.start && x.before.isBefore f s.stop :=
    List.filter_congr fun x hx => by
      have hw : f.Within r x.before.container := wf.within_of_mem_textPlaces hr hx
      rw [Range.holds, wf.after_notAfter hr hstop hx, wf.notAfter_eq hstart hw]
  rw [wf.text_eq_filter hr htop hstart hstop, List.filter_filter, hheld]

/-! ## One range after another -/

theorem filter_textPlaces (hb : f.Within r b.container) :
    (f.textPlaces r).filter (fun x => x.before.isBefore f b)
      = (f.textPlaces r).take (f.charsBefore r b) :=
  wf.filter_before_eq_take
    (wf.pairwise_flatMap_placesOf ((wf.pairwise_preorder hr).filter f.isText) fun _ ht =>
      (List.mem_filter.mp ht).2)
    (fun _ hx => wf.within_of_mem_textPlaces hr hx) hb

/-- The text of a range is a stretch of the characters of the tree. -/
theorem text_eq_stretch (htop : f.parent r = none) (ha : f.Within r a.container)
    (hb : f.Within r b.container) :
    (Range.mk a b).text f
      = .ok ((slice (f.textPlaces r) (f.charsBefore r a) (f.charsBefore r b)).map Place.char) := by
  rw [wf.text_eq_filter hr htop ha hb, wf.filter_textPlaces hr hb,
    filter_not_take (wf.filter_textPlaces hr ha)]

theorem charsBefore_le (ha : f.Within r a.container) (hb : f.Within r b.container)
    (h : a.notAfter f b = true) : f.charsBefore r a ≤ f.charsBefore r b := by
  obtain ⟨o, ho, hne⟩ := Boundary.exists_of_notAfter h
  exact wf.length_filter_before_le (fun _ hx => wf.within_of_mem_textPlaces hr hx) ha hb ho hne

/-- **The text of one range after another** is their texts one after the other. -/
theorem text_append (htop : f.parent r = none) (ha : f.Within r a.container)
    (hb : f.Within r b.container) (hc : f.Within r c.container) (hab : a.notAfter f b = true)
    (hbc : b.notAfter f c = true) :
    ∃ cs cs', (Range.mk a b).text f = .ok cs ∧ (Range.mk b c).text f = .ok cs' ∧
      (Range.mk a c).text f = .ok (cs ++ cs') := by
  refine ⟨_, _, wf.text_eq_stretch hr htop ha hb, wf.text_eq_stretch hr htop hb hc, ?_⟩
  rw [wf.text_eq_stretch hr htop ha hc, ← List.map_append,
    slice_append (wf.charsBefore_le hr ha hb hab) (wf.charsBefore_le hr hb hc hbc)]

end Whole

/-! ## The range around a node -/

/-- A boundary seen further behind is not before one that is seen further ahead. -/
theorem notAfter_of_seen {q : Node} {k l : Nat} (ha : a.SeenFrom f q k) (hb : b.SeenFrom f q l)
    (hne : k ≠ l) : a.notAfter f b = decide (k < l) := by
  rw [Boundary.notAfter_of_compare (wf.compare_of_seen ha hb hne), Bool.eq_iff_iff,
    Nat.isLE_compare, decide_eq_true_iff]
  omega

/-- What lies in a text outside a child is seen before or behind the child. -/
theorem exists_seen_beside (hn : n ∈ f.children p) (hp : f.Within r p) {t : Node}
    (ht : f.Within r t) (htext : f.isText t = true) (hout : ¬ f.Within n t) :
    ∃ q k k' l, Boundary.SeenFrom f q ⟨p, f.slot n⟩ k ∧
      Boundary.SeenFrom f q ⟨p, f.slot n + 1⟩ k' ∧
      (∀ i, Boundary.SeenFrom f q ⟨t, i⟩ l) ∧ (l < k ∨ k' < l) := by
  have hne : t ≠ p := by
    rintro rfl
    rw [wf.not_isText_of_mem_children hn] at htext
    cases htext
  rcases wf.within_or_fork hp ht with (e | h) | (e | h) | ⟨q, c, c', hc, hc', hcc, hcp, hct⟩
  · exact absurd e hne
  · -- the text is in another child of the parent
    obtain ⟨c, hc, hw⟩ := wf.exists_child_within h
    have hslot : f.slot c ≠ f.slot n := fun e => hout (wf.slot_inj hc hn e ▸ hw)
    exact ⟨p, _, _, _, .offset _, .offset _, fun i => .child hc hw, by omega⟩
  · exact absurd e.symm hne
  · exact absurd h (wf.not_above_of_isText htext)
  · have hslot : f.slot c ≠ f.slot c' := fun e => hcc (wf.slot_inj hc hc' e)
    exact ⟨q, _, _, _, .child hc hcp, .child hc hcp, fun i => .child hc' hct, by omega⟩

/-- The range around a child holds what lies in the child. -/
theorem holds_around (hr : f.Has r) (hn : n ∈ f.children p) (hp : f.Within r p) {x : Place}
    (hx : x ∈ f.textPlaces r) :
    (Range.mk ⟨p, f.slot n⟩ ⟨p, f.slot n + 1⟩).holds f x = decide (f.Within n x.node) := by
  by_cases hw : f.Within n x.node
  · have hbefore : x.before.SeenFrom f p (2 * f.slot n + 1) := .child hn hw
    have hafter : x.after.SeenFrom f p (2 * f.slot n + 1) := .child hn hw
    rw [Range.holds, wf.notAfter_of_seen (.offset _) hbefore (by omega),
      wf.notAfter_of_seen hafter (.offset _) (by omega), decide_eq_true hw,
      decide_eq_true (by omega), decide_eq_true (by omega)]
    rfl
  · obtain ⟨-, htext, -⟩ := mem_textPlaces hx
    obtain ⟨q, k, k', l, hk, hk', hl, hout⟩ :=
      wf.exists_seen_beside hn hp (wf.within_of_mem_textPlaces hr hx) htext hw
    rw [decide_eq_false hw, Range.holds, Bool.and_eq_false_iff]
    rcases hout with hlt | hlt
    · left
      rw [wf.notAfter_of_seen (b := x.before) hk (hl _) (by omega), decide_eq_false (by omega)]
    · right
      rw [wf.notAfter_of_seen (a := x.after) (hl _) hk' (by omega), decide_eq_false (by omega)]

/-- The characters of a subtree, among those of the tree. -/
theorem filter_within_textPlaces (hr : f.Has r) (hn : f.Within r n) :
    (f.textPlaces r).filter (fun x => decide (f.Within n x.node)) = f.textPlaces n := by
  have hhas := wf.has_of_within hr hn
  obtain ⟨before, after, e⟩ := wf.preorder_infix hr hn
  have hnd := wf.nodup_preorder hr
  rw [e, List.nodup_append, List.nodup_append] at hnd
  have hnone : ∀ ms : List Node, (∀ m ∈ ms, m ∉ f.preorder n) →
      ((ms.filter f.isText).flatMap f.placesOf).filter (fun x => decide (f.Within n x.node))
        = [] := by
    intro ms hms
    refine List.filter_eq_nil_iff.mpr fun x hx hw => ?_
    obtain ⟨t, ht, hxt⟩ := List.mem_flatMap.mp hx
    obtain rfl := (mem_placesOf.mp hxt).1
    exact hms _ (List.mem_filter.mp ht).1
      ((wf.mem_preorder_iff hhas).mpr (of_decide_eq_true hw))
  have hself : (f.textPlaces n).filter (fun x => decide (f.Within n x.node)) = f.textPlaces n :=
    List.filter_eq_self.mpr fun x hx => decide_eq_true (wf.within_of_mem_textPlaces hhas hx)
  rw [textPlaces, e, List.filter_append, List.filter_append, List.flatMap_append,
    List.flatMap_append, List.filter_append, List.filter_append, ← textPlaces,
    hnone before fun m hm hmem => hnd.2.2 m hm m (List.mem_append_left _ hmem) rfl,
    hnone after fun m hm hmem => hnd.2.1.2.2 m hmem m hm rfl, hself, List.append_nil,
    List.nil_append]

/-- **The text of the range around an element** is the text of the element. -/
theorem text_around (hr : f.Has r) (htop : f.parent r = none) (hn : f.Within r n)
    (hparent : f.parent n = some p) (hcontainer : (f.kind n).isContainer = true) :
    ∃ s, Range.around f n = .ok s ∧ s.text f = .ok (f.stringValue n).toList := by
  have hmem := wf.mem_of_parent hparent
  have hp : f.Within r p := wf.within_of_mem_ancestors htop hn
    (wf.mem_ancestors_iff.mpr ⟨p, hparent, .refl f p⟩)
  refine ⟨_, wf.around_child hmem, ?_⟩
  rw [wf.text_eq_holds hr htop hp hp,
    List.filter_congr fun x hx => wf.holds_around hr hmem hp hx,
    wf.filter_within_textPlaces hr hn, stringValue, if_pos hcontainer, String.toList_ofList,
    textPlaces, List.map_flatMap, flatMap_congr_mem fun t _ => map_char_placesOf t]

/-- **The text of a range** is made of the characters between its boundaries, of all texts of the
tree in document order. So the text of one range after another is that of the two together, and the
range around an element has the text of the element. -/
theorem range_text (hr : f.Has r) (htop : f.parent r = none) :
    (∀ s : Range, f.Within r s.start.container → f.Within r s.stop.container →
      ∃ texts : List Node, (∀ t, t ∈ texts ↔ f.Within r t ∧ f.isText t = true) ∧
        (texts.Pairwise fun t u => f.compareOrder t u = .ok .lt) ∧
        s.text f = .ok (((texts.flatMap f.placesOf).filter (s.holds f)).map Place.char)) ∧
    (∀ a b c : Boundary, f.Within r a.container → f.Within r b.container →
      f.Within r c.container → a.notAfter f b = true → b.notAfter f c = true →
      ∃ cs cs', (Range.mk a b).text f = .ok cs ∧ (Range.mk b c).text f = .ok cs' ∧
        (Range.mk a c).text f = .ok (cs ++ cs')) ∧
    (∀ n p, f.Within r n → f.isElement n = true → f.parent n = some p →
      ∃ s, Range.around f n = .ok s ∧ s.text f = .ok (f.stringValue n).toList) := by
  refine ⟨fun s hstart hstop => ⟨(f.preorder r).filter f.isText, fun t => ?_,
    (wf.pairwise_preorder hr).filter _, wf.text_eq_holds hr htop hstart hstop⟩,
    fun a b c ha hb hc => wf.text_append hr htop ha hb hc,
    fun n p hn helement hparent => wf.text_around hr htop hn hparent ?_⟩
  · rw [List.mem_filter, wf.mem_preorder_iff hr]
  · rw [beq_iff_eq.mp helement]
    rfl

end WellFormed

/-- The document `<r>ab<!--n--><p>cd</p>e</r>`, where `p` is hidden. -/
def hushed : Forest := ⟨#[
  { Record.bare .document with children := [⟨1⟩] },
  { Record.bare .element with
    name := some (.plain "r"), parent := some ⟨0⟩, children := [⟨2⟩, ⟨3⟩, ⟨4⟩, ⟨6⟩] },
  { Record.bare .text with value := some "ab", parent := some ⟨1⟩ },
  { Record.bare .comment with value := some "n", parent := some ⟨1⟩ },
  { Record.bare .element with
    name := some (.plain "p"), parent := some ⟨1⟩, children := [⟨5⟩],
    attributes := [⟨⟨none, Mark.hide.attributeName, some Mark.uri⟩, Mark.set⟩] },
  { Record.bare .text with value := some "cd", parent := some ⟨4⟩ },
  { Record.bare .text with value := some "e", parent := some ⟨1⟩ }]⟩

/-- From behind the `a` to the end of the comment, and on to behind the hidden `c`. -/
theorem range_text_hushed :
    hushed.WellFormed ∧
      (∃ texts : List Node, (∀ t, t ∈ texts ↔ hushed.Within ⟨0⟩ t ∧ hushed.isText t = true) ∧
        (texts.Pairwise fun t u => hushed.compareOrder t u = .ok .lt) ∧
        (Range.mk ⟨⟨2⟩, 1⟩ ⟨⟨5⟩, 1⟩).text hushed = .ok (((texts.flatMap hushed.placesOf).filter
          ((Range.mk ⟨⟨2⟩, 1⟩ ⟨⟨5⟩, 1⟩).holds hushed)).map Place.char)) ∧
      (∃ cs cs', (Range.mk ⟨⟨2⟩, 1⟩ ⟨⟨3⟩, 1⟩).text hushed = .ok cs ∧
        (Range.mk ⟨⟨3⟩, 1⟩ ⟨⟨5⟩, 1⟩).text hushed = .ok cs' ∧
        (Range.mk ⟨⟨2⟩, 1⟩ ⟨⟨5⟩, 1⟩).text hushed = .ok (cs ++ cs')) ∧
      ∃ s, Range.around hushed ⟨4⟩ = .ok s ∧
        s.text hushed = .ok (hushed.stringValue ⟨4⟩).toList := by
  have wf : hushed.WellFormed := isWellFormed_iff.mp (by decide)
  obtain ⟨between, append, around⟩ := wf.range_text (r := ⟨0⟩) (by decide) rfl
  exact ⟨wf, between ⟨⟨⟨2⟩, 1⟩, ⟨⟨5⟩, 1⟩⟩ (by decide) (by decide),
    append ⟨⟨2⟩, 1⟩ ⟨⟨3⟩, 1⟩ ⟨⟨5⟩, 1⟩ (by decide) (by decide) (by decide) (by decide) (by decide),
    around ⟨4⟩ ⟨1⟩ (by decide) (by decide) rfl⟩

end Forest

end TreePointer
