import TreePointer.Proofs.Decoration.Paths
import TreePointer.Proofs.Decoration.Pieces

/-!
# Decoration does not change the address of a stretch of text

A boundary in a part of a text stands where a boundary of the whole text stood. It is at the same
offset in the visible text and below the same element, and so are the places to which the ends of a
stretch move. So the address of the stretch is made from the same elements and the same numbers,
whichever of the parts around a cut its ends are in.

* `State.Stands`: a boundary stands where another one stood before the decoration.
* `Stands.settleStart`, `Stands.settleEnd`: also after both have moved.
* `create_decorated`: the address of the stretch stays the same.
-/

namespace TreePointer

namespace Decoration

open Forest Address

variable {f : Forest} {d : Document} {s : State} {o : Options} {a b a' b' : Boundary}

/-- The first boundary is in a part of the text of the second one, at the same character. -/
def State.Stands (s : State) (b' b : Boundary) : Prop :=
  ∃ i, s.piece b'.container = some (b.container, i) ∧ b.offset = i + b'.offset

/-- What a run of the decoration has kept, and what the document is like. -/
structure Kept (f : Forest) (d : Document) (s : State) : Prop where
  rooted : d.Rooted f
  unmarked : d.IsUnmarked f
  textInElements : d.TextInElements f
  faithful : Faithful f d s
  pieced : Pieced f d.root s

namespace Kept

variable (h : Kept f d s)

include h

theorem wf : f.WellFormed := h.rooted.wellFormed

theorem wf' : s.forest.WellFormed := h.faithful.rooted.wellFormed

theorem has_root : f.Has d.root := h.rooted.has_root

theorem has_root' : s.forest.Has d.root := h.faithful.rooted.has_root

/-! ## Boundaries that stand for each other -/

/-- Both boundaries are in texts of one unmarked element. -/
theorem inText (hb : s.Stands b' b) (hw : f.Within d.root b.container)
    (hi : b'.InBounds s.forest) : ∃ p, d.InText f b p ∧ d.InText s.forest b' p := by
  obtain ⟨i, hpiece, hoffset⟩ := hb
  have hpart := h.pieced.part _ _ _ hpiece hw
  obtain ⟨p, hp, hp', hpr, hcontent⟩ :=
    hpart.exists_parent h.rooted h.faithful.transparent hw
  have hw' := h.pieced.within h.rooted h.faithful hpiece hw
  have helement := h.textInElements _ p hw hpart.isText_whole hp
  have hmarked := h.unmarked p hpr
  have hshown := h.rooted.isShown_of_isText h.unmarked hw hpart.isText_whole
  have hshown' := hpart.isShown h.rooted h.faithful.transparent hw h.unmarked
  have hbounds : b.InBounds f := by
    have hle := hpart.length_le
    rw [Boundary.InBounds, length_of_isShown hshown'] at hi
    rw [Boundary.InBounds, length_of_isShown hshown]
    omega
  refine ⟨p, ⟨hw, hpart.isText_whole, hp, helement, hmarked, hbounds⟩,
    hw', hpart.isText, hp', ?_, ?_, hi⟩
  · exact (h.faithful.transparent.isElement_eq (has_of_isElement helement)).trans helement
  · rw [isMarked_congr hcontent, hmarked]

/-- Both boundaries are at the same offset in the visible text. -/
theorem textOffset_eq (hb : s.Stands b' b) (hw : f.Within d.root b.container)
    (hi : b'.InBounds s.forest) : s.forest.textOffset d.root b' = f.textOffset d.root b := by
  obtain ⟨p, htext, htext'⟩ := h.inText hb hw hi
  obtain ⟨i, hpiece, hoffset⟩ := hb
  have hpart := h.pieced.part _ _ _ hpiece hw
  obtain ⟨t, j⟩ := b
  obtain ⟨t', j'⟩ := b'
  rw [h.wf'.textOffset_in_text h.has_root' htext'.within htext'.isShown htext'.offset_le,
    h.wf.textOffset_in_text h.has_root hw htext.isShown htext.offset_le, hpart.start_eq]
  have hj : j = i + j' := hoffset
  omega

/-- Both boundaries are in one element, after as many counted characters. -/
theorem exists_count (hb : s.Stands b' b) (hw : f.Within d.root b.container)
    (hi : b'.InBounds s.forest) : ∃ p, d.InText f b p ∧ d.InText s.forest b' p ∧
      countIn s.forest p b' = countIn f p b := by
  obtain ⟨p, ht, ht'⟩ := h.inText hb hw hi
  have hpr := ht.within_parent h.rooted
  have hpr' := h.faithful.within h.rooted hpr
  have hp := has_of_isElement ht.isElement
  have hoffset := h.textOffset_eq hb hw hi
  rw [h.wf'.textOffset_within h.has_root' hpr' (Or.inr (ht'.mem_ancestors h.wf')),
    h.wf.textOffset_within h.has_root hpr (Or.inr (ht.mem_ancestors h.wf)),
    h.faithful.transparent.start_eq p hpr] at hoffset
  refine ⟨p, ht, ht', ?_⟩
  rw [countIn, countIn, Nat.add_left_cancel hoffset,
    h.faithful.transparent.chars_eq p hp (not_isText_of_isElement ht.isElement)]

/-- The order of the boundaries stays. -/
theorem compare_eq (ha : s.Stands a' a) (hb : s.Stands b' b) (haw : f.Within d.root a.container)
    (hbw : f.Within d.root b.container) (hai : a'.InBounds s.forest) (hbi : b'.InBounds s.forest)
    (hab : a.compare f b = .ok .lt) : a'.compare s.forest b' = .ok .lt := by
  obtain ⟨p, hta, hta'⟩ := h.inText ha haw hai
  obtain ⟨q, htb, htb'⟩ := h.inText hb hbw hbi
  by_cases hsame : a.container = b.container
  · -- one text: a later character has a later offset
    refine h.wf'.compare_of_textOffset_lt h.has_root' hta'.within htb'.within ?_
    rw [h.textOffset_eq ha haw hai, h.textOffset_eq hb hbw hbi]
    rw [Boundary.compare_same hsame, Except.ok.injEq, Nat.compare_eq_lt] at hab
    obtain ⟨t, i⟩ := a
    obtain ⟨u, j⟩ := b
    obtain rfl : t = u := hsame
    rw [h.wf.textOffset_in_text h.has_root haw hta.isShown hta.offset_le,
      h.wf.textOffset_in_text h.has_root hbw htb.isShown htb.offset_le]
    exact Nat.add_lt_add_left hab _
  · obtain ⟨i, hpiece, -⟩ := ha
    obtain ⟨j, hpiece', -⟩ := hb
    have horder : f.compareOrder a.container b.container = .ok .lt := by
      rcases h.wf.compareOrder_total h.has_root haw hbw with e | hlt | hgt
      · exact absurd e hsame
      · exact hlt
      · rw [h.wf.compare_of_later hgt (h.wf.not_above_of_isShown htb.isShown)] at hab
        cases hab
    exact h.wf'.compare_of_earlier (h.pieced.ordered _ _ _ _ _ _ hpiece haw hpiece' hbw horder)
      (h.wf'.not_above_of_isShown hta'.isShown)

/-! ## The places to which boundaries move -/

/-- There are as many visible characters as before. -/
theorem length_places_eq : (s.forest.places d.root).length = (f.places d.root).length := by
  have hchars := h.faithful.transparent.chars_eq d.root h.has_root h.rooted.reaches_root.2
  have hlen := congrArg List.length hchars
  rwa [visibleChars, visibleChars, List.length_map, List.length_map] at hlen

/-- The boundaries around a character stand where they stood. -/
theorem place_stands {k : Nat} {x x' : Place} (hx : (f.places d.root)[k]? = some x)
    (hx' : (s.forest.places d.root)[k]? = some x') :
    s.Stands x'.before x.before ∧ s.Stands x'.after x.after := by
  obtain ⟨hbefore, hafter⟩ := inShown_of_place h.wf' h.has_root' hx'
  obtain ⟨t, i, hpiece, hw⟩ := h.pieced.covered _ hbefore.within hbefore.isShown
  have hpart := h.pieced.part _ _ _ hpiece hw
  have hshown := h.rooted.isShown_of_isText h.unmarked hw hpart.isText_whole
  have hlt : i + x'.index < (f.characters t).length := by
    have hbounds : x'.index + 1 ≤ s.forest.length x'.before.container := hafter.inBounds
    rw [length_of_isShown hbefore.isShown] at hbounds
    have hle := hpart.length_le
    omega
  have hstands : s.Stands x'.before ⟨t, i + x'.index⟩ := ⟨i, hpiece, rfl⟩
  obtain ⟨c, hc⟩ := h.wf.exists_getElem?_places h.has_root hw hshown hlt
  rw [← h.textOffset_eq hstands hw hbefore.inBounds, (h.wf'.textOffset_place h.has_root' hx').1, hx,
    Option.some.injEq] at hc
  rw [hc]
  exact ⟨hstands, i, hpiece, Nat.add_assoc _ _ _⟩

/-- The characters correspond, one by one. -/
theorem places_stand (k : Nat) :
    Option.Rel (fun x' x => s.Stands x'.before x.before ∧ s.Stands x'.after x.after)
      (s.forest.places d.root)[k]? (f.places d.root)[k]? := by
  by_cases hk : k < (f.places d.root).length
  · have hk' : k < (s.forest.places d.root).length := h.length_places_eq ▸ hk
    rw [List.getElem?_eq_getElem hk, List.getElem?_eq_getElem hk']
    exact .some (h.place_stands (List.getElem?_eq_getElem hk) (List.getElem?_eq_getElem hk'))
  · have hnone := List.getElem?_eq_none_iff.mpr (Nat.le_of_not_lt hk)
    have hnone' : (s.forest.places d.root)[k]? = none := by
      rw [List.getElem?_eq_none_iff, h.length_places_eq]
      exact Nat.le_of_not_lt hk
    rw [hnone, hnone']
    exact .none

section Settled

variable (hb : s.Stands b' b) (hw : f.Within d.root b.container) (hi : b'.InBounds s.forest)

include hb hw hi

/-- A start moves to where it would have moved before. -/
theorem settleStart_stands : s.Stands (settleStart s.forest b') (settleStart f b) := by
  obtain ⟨p, ht, ht'⟩ := h.inText hb hw hi
  rw [settleStart_eq h.wf h.has_root h.rooted.parent_root ht.inShown_root,
    settleStart_eq h.wf' h.has_root' h.faithful.rooted.parent_root
      ht'.inShown_root, h.textOffset_eq hb hw hi]
  have hplaces := h.places_stand (f.textOffset d.root b)
  generalize (s.forest.places d.root)[f.textOffset d.root b]? = x',
    (f.places d.root)[f.textOffset d.root b]? = x at hplaces ⊢
  cases hplaces with
  | none => exact hb
  | some hx => exact hx.1

/-- An end moves to where it would have moved before. -/
theorem settleEnd_stands : s.Stands (settleEnd s.forest b') (settleEnd f b) := by
  obtain ⟨p, ht, ht'⟩ := h.inText hb hw hi
  rw [settleEnd_eq h.wf h.has_root h.rooted.parent_root ht.inShown_root,
    settleEnd_eq h.wf' h.has_root' h.faithful.rooted.parent_root
      ht'.inShown_root, h.textOffset_eq hb hw hi]
  by_cases hzero : f.textOffset d.root b = 0
  · rw [if_pos hzero, if_pos hzero]
    exact hb
  · rw [if_neg hzero, if_neg hzero]
    have hplaces := h.places_stand (f.textOffset d.root b - 1)
    generalize (s.forest.places d.root)[f.textOffset d.root b - 1]? = x',
      (f.places d.root)[f.textOffset d.root b - 1]? = x at hplaces ⊢
    cases hplaces with
    | none => exact hb
    | some hx => exact hx.2

/-- The settled start is in the same element, after as many counted characters. -/
theorem settleStart_count : ∃ p, d.InText f (settleStart f b) p ∧
    d.InText s.forest (settleStart s.forest b') p ∧
    countIn s.forest p (settleStart s.forest b') = countIn f p (settleStart f b) := by
  obtain ⟨p, ht, ht'⟩ := h.inText hb hw hi
  obtain ⟨hs, -⟩ := settleStart_spec h.wf h.has_root h.rooted.parent_root ht.inShown_root
  obtain ⟨hs', -⟩ :=
    settleStart_spec h.wf' h.has_root' h.faithful.rooted.parent_root ht'.inShown_root
  exact h.exists_count (h.settleStart_stands hb hw hi) hs.within hs'.inBounds

/-- So is the settled end. -/
theorem settleEnd_count : ∃ q, d.InText f (settleEnd f b) q ∧
    d.InText s.forest (settleEnd s.forest b') q ∧
    countIn s.forest q (settleEnd s.forest b') = countIn f q (settleEnd f b) := by
  obtain ⟨p, ht, ht'⟩ := h.inText hb hw hi
  obtain ⟨hs, -⟩ := settleEnd_spec h.wf h.has_root h.rooted.parent_root ht.inShown_root
  obtain ⟨hs', -⟩ :=
    settleEnd_spec h.wf' h.has_root' h.faithful.rooted.parent_root ht'.inShown_root
  exact h.exists_count (h.settleEnd_stands hb hw hi) hs.within hs'.inBounds

end Settled

/-! ## The expression -/

theorem betweenNumbers_eq {p q : Node} (hp : f.Within d.root p) (hpe : f.isElement p = true)
    (hq : f.Within d.root q) (hqe : f.isElement q = true) (n m : Nat) :
    betweenNumbers s.forest d o p n q m = betweenNumbers f d o p n q m := by
  have hstart := h.faithful.stringRange_eq (o := o) h.rooted hp hpe
  have hstop := h.faithful.stringRange_eq (o := o) h.rooted hq hqe
  simp only [betweenNumbers, startNumber, stopNumber, hstart, hstop]

section Between

variable (ha : s.Stands a' a) (hb : s.Stands b' b) (haw : f.Within d.root a.container)
  (hbw : f.Within d.root b.container) (hai : a'.InBounds s.forest) (hbi : b'.InBounds s.forest)
  (hab : a.compare f b = .ok .lt)

include ha hb haw hbw hai hbi hab

/-- The settled ends stay apart as they did. -/
theorem settled_apart : (settleStart s.forest a').compare s.forest (settleEnd s.forest b') = .ok .lt ↔
    (settleStart f a).compare f (settleEnd f b) = .ok .lt := by
  obtain ⟨p, hta, hta'⟩ := h.inText ha haw hai
  obtain ⟨q, htb, htb'⟩ := h.inText hb hbw hbi
  have hplaces : s.forest.places d.root = [] ↔ f.places d.root = [] := by
    rw [← List.length_eq_zero_iff, h.length_places_eq, List.length_eq_zero_iff]
  rw [settled_apart_iff h.wf h.has_root h.rooted.parent_root hta.inShown_root htb.inShown_root hab,
    settled_apart_iff h.wf' h.has_root' h.faithful.rooted.parent_root hta'.inShown_root
      htb'.inShown_root (h.compare_eq ha hb haw hbw hai hbi hab),
    h.textOffset_eq ha haw hai, h.textOffset_eq hb hbw hbi, hplaces]

/-- **The expression** for the stretch stays the same. -/
theorem betweenTexts_eq : betweenTexts s.forest d o a' b' = betweenTexts f d o a b := by
  obtain ⟨p, hta, hta', hcount⟩ := h.settleStart_count ha haw hai
  obtain ⟨q, htb, htb', hcount'⟩ := h.settleEnd_count hb hbw hbi
  have hpr := hta.within_parent h.rooted
  have hqr := htb.within_parent h.rooted
  have hapart := h.settled_apart ha hb haw hbw hai hbi hab
  by_cases hlt : (settleStart f a).compare f (settleEnd f b) = .ok .lt
  · rw [betweenTexts_apart h.rooted hta htb hlt,
      betweenTexts_apart h.faithful.rooted hta' htb' (hapart.mpr hlt), hcount, hcount',
      h.betweenNumbers_eq hpr hta.isElement hqr htb.isElement]
  · rw [betweenTexts_meet h.rooted hta htb hlt,
      betweenTexts_meet h.faithful.rooted hta' htb' (fun hlt' => hlt (hapart.mp hlt')), hcount,
      h.betweenNumbers_eq hpr hta.isElement hpr hta.isElement]

end Between

end Kept

/-- **Decoration does not change the address of a stretch of text.** In a document without marks,
let the ends of a stretch be in texts, and after any run of the decoration let two boundaries stand
where they stood. Then the address of the stretch between these is the address of the stretch; and
there is one if the elements have names. -/
theorem create_decorated (hd : d.Rooted f) (hsole : d.IsSole f) (hunmarked : d.IsUnmarked f)
    (htext : d.TextInElements f) (hs : Decorated f s) (ha : f.Within d.root a.container)
    (hb : f.Within d.root b.container) (hab : a.compare f b = .ok .lt) (ha' : s.Stands a' a)
    (hb' : s.Stands b' b) (hai : a'.InBounds s.forest) (hbi : b'.InBounds s.forest)
    {selection selection' : Selection} (hsel : selection.Spans a b)
    (hsel' : selection'.Spans a' b') :
    create s.forest d o selection' = create f d o selection ∧
      (d.Named f → ∃ address, create f d o selection = .ok address) := by
  have h : Kept f d s := ⟨hd, hunmarked, htext, hs.faithful hd, hs.pieced hd hunmarked⟩
  obtain ⟨p, hta, hta'⟩ := h.inText ha' ha hai
  obtain ⟨q, htb, htb'⟩ := h.inText hb' hb hbi
  have hab' := h.compare_eq ha' hb' ha hb hai hbi hab
  rw [create_texts hd hta htb hab hsel, create_texts h.faithful.rooted hta' htb' hab' hsel',
    h.betweenTexts_eq ha' hb' ha hb hai hbi hab]
  refine ⟨rfl, fun hnamed => ?_⟩
  obtain ⟨_, hstart, -⟩ := h.settleStart_count ha' ha hai
  obtain ⟨_, hstop, -⟩ := h.settleEnd_count hb' hb hbi
  obtain ⟨body, hbody⟩ := exists_betweenTexts (o := o) hd hsole hnamed hstart hstop
  exact ⟨wrapped o body, by rw [hbody]; rfl⟩

/-- The selection of `b` and the blank behind it ends where the text was cut; here it is made
backwards, and from behind the cut. -/
theorem create_decorated_adorned :
    (create plain ⟨⟨0⟩, .xml⟩ .standard (.anchorFocus ⟨⟨3⟩, 1⟩ ⟨⟨3⟩, 3⟩)).toOption
        = some "xpointer(string-range(/r[1]/p[1], \"\", 2, 2))" ∧
      create adorned ⟨⟨0⟩, .xml⟩ .standard (.anchorFocus ⟨⟨5⟩, 0⟩ ⟨⟨3⟩, 1⟩)
        = create plain ⟨⟨0⟩, .xml⟩ .standard (.anchorFocus ⟨⟨3⟩, 1⟩ ⟨⟨3⟩, 3⟩) := by
  obtain ⟨s, hs, hforest, hfirst, hsecond⟩ := plain_adorned
  refine ⟨by decide, ?_⟩
  have hwithin : Forest.Within plain ⟨0⟩ ⟨3⟩ := by decide
  have hstart : (⟨⟨3⟩, 1⟩ : Boundary).InBounds s.forest := by
    rw [hforest]
    decide
  have hstop : (⟨⟨5⟩, 0⟩ : Boundary).InBounds s.forest := by
    rw [hforest]
    decide
  rw [← hforest]
  exact (create_decorated plain_rooted (plain_rooted.isSole_of_check (by decide))
    (plain_rooted.forall_within (by decide))
    (plain_rooted.textInElements_of_check (by decide)) hs hwithin hwithin
    (by decide) ⟨0, hfirst, rfl⟩ ⟨3, hsecond, rfl⟩ hstart hstop (.inr (.inl rfl))
    (.inr (.inr rfl))).1

end Decoration

end TreePointer
