import TreePointer.Proofs.Address.Soundness
import TreePointer.Proofs.Decoration.Resolution
import TreePointer.Proofs.Decoration.ShiftEdits

/-!
# Resolutions carried over to an edited document

If an edit moves boundaries in order, then all ranges an evaluation comes to are moved with their
ends: those around nodes, those of stretches of characters, and those from one range to another.
So the range of an address in the edited document has its ends where those of the range before have
come to be.

* `Carried`: what is asked of where boundaries come to be. `Carried.refl`, `Carried.of_shift`: they
  stay, or are moved by an edit.
* `Range.Follows`: a range and what it has become. `Carried.alike`, `Carried.resolve`: all ranges
  have become something, and an address is resolved to that.
-/

namespace TreePointer

/-! ## Boundaries that keep their order -/

/-- A boundary in a container or in a text. All boundaries of resolutions are. -/
def Boundary.Anchored (f : Forest) (b : Boundary) : Prop :=
  (f.kind b.container).isContainer = true ∨ f.isText b.container = true

/-- A range of the document, and what it has become. -/
structure Range.Follows (M : Boundary → Boundary → Prop) (f g : Forest) (d : Document)
    (r r' : Range) : Prop where
  start : M r.start r'.start
  stop : M r.stop r'.stop
  sound : r.Sound f d
  sound' : r'.Sound g d
  start_anchored : r.start.Anchored f
  stop_anchored : r.stop.Anchored f

namespace Decoration

open Forest

variable {f g : Forest} {d : Document} {M : Boundary → Boundary → Prop} {p n : Node}
  {left old new right cut : List Node} {into : Boundary → Boundary → Prop}

/-- Where the boundaries of a document come to be, if no address notices a difference: next to the
nodes and characters they were next to, and in the order they were in. -/
structure Carried (f g : Forest) (d : Document) (M : Boundary → Boundary → Prop) : Prop where
  rooted : d.Rooted g
  transparent : Transparent f g d.root
  first : g.firstElement? d.root = f.firstElement? d.root
  lt : ∀ {a b a' b' : Boundary}, f.Within d.root a.container → f.Within d.root b.container →
    M a a' → M b b' → a.compare f b = .ok .lt → a'.compare g b' = .ok .lt
  around : ∀ {q c : Node}, c ∈ f.children q → f.isText c = false → ∃ q', c ∈ g.children q' ∧
    M ⟨q, f.slot c⟩ ⟨q', g.slot c⟩ ∧ M ⟨q, f.slot c + 1⟩ ⟨q', g.slot c + 1⟩
  places : ∀ {n : Node}, d.Reaches f n → List.Forall₂ (Place.Moves M) (f.places n) (g.places n)
  endOfText : ∀ {n : Node}, d.Reaches f n → M (f.endOfText n) (g.endOfText n)

/-- If nothing is done, all boundaries stay. -/
theorem Carried.refl (hd : d.Rooted f) : Carried f f d Eq where
  rooted := hd
  transparent := .refl hd.wellFormed hd.has_root
  first := rfl
  lt := by
    rintro a b _ _ - - rfl rfl h
    exact h
  around := fun hc _ => ⟨_, hc, rfl, rfl⟩
  places := fun _ => List.forall₂_same.mpr fun _ _ => ⟨rfl, rfl, rfl⟩
  endOfText := fun _ => rfl

/-- The start of a node that is not cut stays. -/
theorem moves_start (hcut : n ∉ cut) : Boundary.Moves p left old new cut into ⟨n, 0⟩ ⟨n, 0⟩ := by
  by_cases hnp : n = p
  · subst hnp
    exact .before (Nat.zero_le _)
  · exact .elsewhere hnp hcut

/-- **An edit below the root** moves boundaries in order. -/
theorem Carried.of_shift (h : Shift f g p left old new right cut into) (hd : d.Rooted f)
    (hp : p ≠ d.root) : Carried f g d (Boundary.Moves p left old new cut into) where
  rooted := rooted_of_unnoticed hd h.unnoticed
  transparent := h.unnoticed.transparent hd.wellFormed hd.has_root hd.kind_root
  first := by
    have hchildren := h.unnoticed.replaced.children_eq d.root hd.has_root (Ne.symm hp)
    rw [firstElement?, hchildren, h.unnoticed.find?_eq fun _ hm => hd.wellFormed.has_child hm,
      firstElement?]
  lt := h.compare_lt hd.wellFormed
  around := fun hc ht => h.around hd.wellFormed hc (h.unnoticed.not_cut ht)
  places := by
    intro n hn
    obtain ⟨parts, hshown, hparts⟩ := h.texts
    exact places_moved (hshown n (hd.wellFormed.has_of_within hd.has_root hn.1)
      (h.unnoticed.not_cut hn.2)) hparts
  endOfText := by
    intro n hn
    obtain ⟨parts, hshown, hparts⟩ := h.texts
    have hcut := h.unnoticed.not_cut hn.2
    exact endOfText_moved (hshown n (hd.wellFormed.has_of_within hd.has_root hn.1) hcut) hparts
      (moves_start hcut)

/-- The containers of a document. -/
def Container (f : Forest) (d : Document) (n : Node) : Prop :=
  f.Within d.root n ∧ (f.kind n).isContainer = true

theorem Container.reaches (h : Container f d n) : d.Reaches f n :=
  ⟨h.1, not_isText_of_isContainer h.2⟩

theorem Container.of_isElement (hw : f.Within d.root n) (he : f.isElement n = true) :
    Container f d n :=
  ⟨hw, isContainer_of_isElement he⟩

/-- The ends of a stretch of characters are in texts, or at the start of the node. -/
theorem anchored_of_stringRange (hd : d.Rooted f) (hn : Container f d n) {start length : Int}
    {r : Range} (h : f.stringRange n start length = .ok (some r)) :
    r.start.Anchored f ∧ r.stop.Anchored f := by
  have wf := hd.wellFormed
  have hhas := wf.has_of_within hd.has_root hn.1
  have hplaces : List.Forall₂ (Place.Moves fun a _ => a.Anchored f) (f.places n) (f.places n) := by
    refine List.forall₂_same.mpr fun y hy => ?_
    have htext := isText_of_isShown (mem_placesIn hy).2.1
    exact ⟨rfl, .inr htext, .inr htext⟩
  have hend : (f.endOfText n).Anchored f := by
    unfold endOfText
    split
    · next t ht => exact .inr (isText_of_isShown (List.mem_filter.mp (List.mem_of_getLast? ht)).2)
    · exact .inl hn.2
  have hmoved := stringRange_moved wf wf hhas hhas hplaces hend start length
  rw [h] at hmoved
  cases hmoved with
  | ok hrel =>
    cases hrel with
    | some hr => exact hr

namespace Carried

variable (hd : d.Rooted f) (h : Carried f g d M)

include hd h

/-- **The range between two boundaries** becomes one between what they have become. -/
theorem make_moved {a b a' b' : Boundary} (ha : f.Within d.root a.container) (hai : a.InBounds f)
    (hb : f.Within d.root b.container) (hbi : b.InBounds f) (ha' : g.Within d.root a'.container)
    (hai' : a'.InBounds g) (hb' : g.Within d.root b'.container) (hbi' : b'.InBounds g)
    (haa : M a a') (hbb : M b b') :
    ∃ stop stop', Range.make f a b = .ok ⟨a, stop⟩ ∧ Range.make g a' b' = .ok ⟨a', stop'⟩ ∧
      M stop stop' ∧ (stop = a ∨ stop = b) := by
  have wf := hd.wellFormed
  have wf' := h.rooted.wellFormed
  obtain ⟨o, ho⟩ := wf.exists_compare ha hb
  cases o with
  | lt =>
    have ho' := h.lt ha hb haa hbb ho
    exact ⟨b, b', Range.make_of_le hai hbi ho (by decide),
      Range.make_of_le hai' hbi' ho' (by decide), hbb, .inr rfl⟩
  | gt =>
    have ho' := wf'.compare_swap hb' ha' (h.lt hb ha hbb haa (wf.compare_swap ha hb ho))
    exact ⟨a, a', Range.make_of_gt hai hbi ho, Range.make_of_gt hai' hbi' ho', haa, .inl rfl⟩
  | eq =>
    -- one boundary may have become two, in whatever order
    obtain rfl := Boundary.compare_eq_iff.mp ho
    obtain ⟨o', ho'⟩ := wf'.exists_compare ha' hb'
    by_cases hgt : o' = .gt
    · subst hgt
      exact ⟨a, a', Range.make_of_le hai hbi ho (by decide), Range.make_of_gt hai' hbi' ho', haa,
        .inl rfl⟩
    · exact ⟨a, b', Range.make_of_le hai hbi ho (by decide), Range.make_of_le hai' hbi' ho' hgt,
        hbb, .inl rfl⟩

/-- The range around a node becomes the range around it. -/
theorem around_follows {q c : Node} (hq : f.Within d.root q) (hc : c ∈ f.children q)
    (ht : f.isText c = false) : ∃ r r', Location.rangeAround f c = .ok r ∧
      Location.rangeAround g c = .ok r' ∧ Range.Follows M f g d r r' := by
  have wf := hd.wellFormed
  have wf' := h.rooted.wellFormed
  obtain ⟨q', hc', hstart, hstop⟩ := h.around hc ht
  have hw := wf.within_child hq hc
  have hroot : c ≠ d.root := by
    rintro rfl
    have htop := hd.parent_root
    rw [wf.parent_of_mem hc] at htop
    cases htop
  obtain ⟨r, hr, hsound⟩ := hd.around_below hw hroot
  obtain ⟨r', hr', hsound'⟩ :=
    h.rooted.around_below (h.transparent.within wf wf' hd.has_root hw) hroot
  have hanchored := wf.container_of_mem q c hc
  have e := (wf.rangeAround_child hc).1
  have e' := (wf'.rangeAround_child hc').1
  rw [e, Except.ok.injEq] at hr
  rw [e', Except.ok.injEq] at hr'
  subst hr hr'
  exact ⟨_, _, e, e', hstart, hstop, hsound, hsound', .inl hanchored, .inl hanchored⟩

/-- The range around any node of the document becomes the range around it. -/
theorem around_agrees (hn : Container f d n) : Agrees (Range.Follows M f g d)
    (Location.rangeAround f n) (Location.rangeAround g n) := by
  have wf := hd.wellFormed
  by_cases hroot : n = d.root
  · -- the range around the root is that around its first element
    subst hroot
    rw [wf.rangeAround_of_top hd.parent_root,
      h.rooted.wellFormed.rangeAround_of_top h.rooted.parent_root, h.first]
    cases he : f.firstElement? d.root with
    | none => exact .error _
    | some e =>
      obtain ⟨r, r', hr, hr', hfollows⟩ := h.around_follows hd (.refl f d.root)
        (List.mem_of_find?_eq_some he) (not_isText_of_isElement (List.find?_some he))
      dsimp only
      rw [hr, hr']
      exact .ok hfollows
  · obtain ⟨p, hp, hpr⟩ := wf.exists_parent hn.1 hroot
    obtain ⟨r, r', hr, hr', hfollows⟩ :=
      h.around_follows hd hpr (wf.mem_of_parent hp) hn.reaches.2
    rw [hr, hr']
    exact .ok hfollows

/-- The range from one range to another becomes that from what the one to what the other has
become. -/
theorem make_agrees {r r' s s' : Range} (hr : Range.Follows M f g d r r')
    (hs : Range.Follows M f g d s s') : Agrees (Range.Follows M f g d)
      (Range.make f r.start s.stop) (Range.make g r'.start s'.stop) := by
  obtain ⟨made, hmade, hsound⟩ := hd.make_sound hr.sound.start_within hr.sound.start_inBounds
    hs.sound.stop_within hs.sound.stop_inBounds
  obtain ⟨made', hmade', hsound'⟩ := h.rooted.make_sound hr.sound'.start_within
    hr.sound'.start_inBounds hs.sound'.stop_within hs.sound'.stop_inBounds
  obtain ⟨stop, stop', e, e', hstop, hends⟩ := h.make_moved hd hr.sound.start_within
    hr.sound.start_inBounds hs.sound.stop_within hs.sound.stop_inBounds hr.sound'.start_within
    hr.sound'.start_inBounds hs.sound'.stop_within hs.sound'.stop_inBounds hr.start hs.stop
  obtain rfl := Except.ok.inj (hmade.symm.trans e)
  obtain rfl := Except.ok.inj (hmade'.symm.trans e')
  rw [e, e']
  refine .ok ⟨hr.start, hstop, hsound, hsound', hr.start_anchored, ?_⟩
  rcases hends with rfl | rfl
  · exact hr.start_anchored
  · exact hs.stop_anchored

/-- The range of a stretch of characters becomes that of the same stretch. -/
theorem stringRange_agrees (hn : Container f d n) (start length : Nat) :
    Agrees (Option.Rel (Range.Follows M f g d))
      (f.stringRange n start length) (g.stringRange n start length) := by
  have wf := hd.wellFormed
  have wf' := h.rooted.wellFormed
  have hhas := wf.has_of_within hd.has_root hn.1
  have hmoved := stringRange_moved wf wf' hhas (h.transparent.has n hhas) (h.places hn.reaches)
    (h.endOfText hn.reaches) start length
  obtain ⟨found, hfound, hsound⟩ := hd.stringRange_sound hn.1 start length
  obtain ⟨found', hfound', hsound'⟩ :=
    h.rooted.stringRange_sound (h.transparent.within wf wf' hd.has_root hn.1) start length
  rw [hfound, hfound'] at hmoved ⊢
  cases hmoved with
  | ok hrel =>
    refine .ok ?_
    cases hrel with
    | none => exact .none
    | some hr =>
      obtain ⟨hstart, hstop⟩ := anchored_of_stringRange hd hn hfound
      exact .some ⟨hr.1, hr.2, hsound _ rfl, hsound' _ rfl, hstart, hstop⟩

/-- **All ranges of an evaluation** have become something. -/
theorem alike : Alike f g d (Container f d) (Range.Follows M f g d) := by
  have hfaithful : Faithful f d ⟨g, [], fun _ => none⟩ :=
    ⟨h.rooted, h.transparent, fun _ hx => (List.not_mem_nil hx).elim⟩
  have base := hfaithful.alike hd
  refine {
    root := ⟨.refl f d.root, by rw [hd.kind_root]; rfl⟩
    isElement_eq := fun n hn => base.isElement_eq n hn.reaches
    tag_eq := fun n hn => base.tag_eq n hn.reaches
    elements_eq := fun p hp => base.elements_eq p hp.reaches
    elements_mem := fun p c hp hc =>
      .of_isElement (base.elements_mem p c hp.reaches hc).1 (List.mem_filter.mp hc).2
    parent_eq := fun n hn => base.parent_eq n hn.reaches
    parent_mem := fun n p hn hp => ?_
    byId_eq := base.byId_eq
    byId_mem := fun id n hn => .of_isElement (hd.elementById_spec hn).1 (hd.elementById_spec hn).2
    around := fun n hn => h.around_agrees hd hn
    make := fun r r' s s' hr hs => h.make_agrees hd hr hs
    collapse := fun r r' toStart hr => ?_
    stringRange := fun n start length hn => h.stringRange_agrees hd hn start length }
  · obtain ⟨c, hc, -⟩ := hd.wellFormed.exists_child_within (effectiveParent?_spec hp).1
    exact ⟨(base.parent_mem n p hn.reaches hp).1, hd.wellFormed.container_of_mem p c hc⟩
  · cases toStart with
    | true => exact ⟨hr.start, hr.start, hr.sound.collapse true, hr.sound'.collapse true,
        hr.start_anchored, hr.start_anchored⟩
    | false => exact ⟨hr.stop, hr.stop, hr.sound.collapse false, hr.sound'.collapse false,
        hr.stop_anchored, hr.stop_anchored⟩

/-- **An address is resolved** to what its range has become. -/
theorem resolve {o : Options} {address : String} {r : Range}
    (hr : Address.resolve f d o address = .ok r) :
    ∃ r', Address.resolve g d o address = .ok r' ∧ Range.Follows M f g d r r' := by
  have hcorrespondence := (h.alike hd).inAny.correspondence.toCorrespondence
  have hagrees := Address.resolve_agrees hcorrespondence o address
  rw [hr] at hagrees
  generalize Address.resolve g d o address = y at hagrees
  cases hagrees with
  | ok hfollows => exact ⟨_, rfl, hfollows⟩

end Carried

end Decoration

end TreePointer
