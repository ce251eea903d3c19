import TreePointer.Proofs.Address.Simulation
import TreePointer.Proofs.Text.Moved
import TreePointer.Proofs.Tree.Identified

/-!
# Documents that are twins

Documents whose trees are the same, and in which elements that are identified have the same tag as
tags are compared, may still write these tags in another way. No place in them shows it: boundaries
have the same order, the visible characters are the same, and so are the ranges of counted
characters.

* `Boundary.Corresponds`, `Range.Corresponds`: places at one offset of nodes that are identified.
* `Copied.compare_eq`, `Copied.rangeAround`, `Copied.make`: how places are compared and joined.
* `Copied.countBefore_eq`, `Copied.stringRange`: how characters are counted.
* `Document.Twins`: two such documents; `Twins.correspondence`: they answer an evaluation alike.
-/

namespace TreePointer

/-! ## Places -/

/-- Boundaries at one offset of nodes that correspond. -/
structure Boundary.Corresponds (M : Node → Node → Prop) (b b' : Boundary) : Prop where
  container : M b.container b'.container
  offset_eq : b'.offset = b.offset

/-- Ranges between boundaries that correspond. -/
structure Range.Corresponds (M : Node → Node → Prop) (r r' : Range) : Prop where
  start : r.start.Corresponds M r'.start
  stop : r.stop.Corresponds M r'.stop

/-- Counts before a boundary that have got as far. -/
structure Forest.BoundaryCount.Corresponds (M : Node → Node → Prop) (s s' : BoundaryCount) :
    Prop where
  current : Option.Rel M s.current s'.current
  counter_eq : s'.counter = s.counter

theorem Range.Corresponds.point {M : Node → Node → Prop} {b b' : Boundary}
    (h : b.Corresponds M b') : (Range.point b).Corresponds M (.point b') :=
  ⟨h, h⟩

theorem Range.Corresponds.collapse {M : Node → Node → Prop} {r r' : Range}
    (h : r.Corresponds M r') (toStart : Bool) :
    (r.collapse toStart).Corresponds M (r'.collapse toStart) := by
  cases toStart
  · exact .point h.stop
  · exact .point h.start

namespace Forest.Copied

variable {f g : Forest} {M : Node → Node → Prop} {n n' : Node} {a a' b b' : Boundary}
  (h : f.Copied g M)

include h

theorem check_eq (hb : b.Corresponds M b') : b'.check g = b.check f := by
  have hlength := h.length_eq hb.container
  have hbounds : b'.InBounds g ↔ b.InBounds f := by
    rw [Boundary.InBounds, hb.offset_eq, hlength, Boundary.InBounds]
  rw [Boundary.check, Boundary.check, hb.offset_eq, hlength]
  by_cases hin : b.InBounds f
  · rw [if_pos hin, if_pos (hbounds.mpr hin)]
  · rw [if_neg hin, if_neg (mt hbounds.mp hin)]

theorem placeOf (hn : M n n') : Agrees (fun x y => M x.1 y.1 ∧ y.2 = x.2)
    (Boundary.placeOf f n) (Boundary.placeOf g n') := by
  rw [Boundary.placeOf, Boundary.placeOf, h.childIndex?_eq hn]
  rcases h.parent_cases hn with ⟨hp, hp'⟩ | ⟨p, p', hp, hp', hpp⟩
  · rw [hp, hp']
    exact .error _
  · rw [hp, hp']
    cases f.childIndex? n with
    | none => exact .error _
    | some i => exact .ok ⟨hpp, rfl⟩

theorem before (hn : M n n') :
    Agrees (Boundary.Corresponds M) (Boundary.before f n) (Boundary.before g n') :=
  (h.placeOf hn).bind fun _ _ hp => .ok ⟨hp.1, hp.2⟩

theorem after (hn : M n n') :
    Agrees (Boundary.Corresponds M) (Boundary.after f n) (Boundary.after g n') :=
  (h.placeOf hn).bind fun _ _ hp => .ok ⟨hp.1, congrArg (· + 1) hp.2⟩

theorem around (hn : M n n') :
    Agrees (Range.Corresponds M) (Range.around f n) (Range.around g n') :=
  (h.before hn).bind fun _ _ ha => (h.after hn).bind fun _ _ hb => .ok ⟨ha, hb⟩

theorem rangeAround (hn : M n n') :
    Agrees (Range.Corresponds M) (Location.rangeAround f n) (Location.rangeAround g n') := by
  rw [Location.rangeAround, Location.rangeAround]
  rcases h.parent_cases hn with ⟨hp, hp'⟩ | ⟨p, p', hp, hp', -⟩
  · rw [hp, hp']
    rcases option_rel_cases (h.firstElement hn) with ⟨he, he'⟩ | ⟨e, e', he, he', hee⟩
    · rw [he, he']
      exact .error _
    · rw [he, he']
      exact h.around hee
  · rw [hp, hp']
    exact h.around hn

variable (wf : f.WellFormed) (wf' : g.WellFormed)

include wf wf'

theorem compareForward_eq (ha : a.Corresponds M a') (hb : b.Corresponds M b') :
    a'.compareForward g b' = a.compareForward f b := by
  rw [Boundary.compareForward, Boundary.compareForward, ha.offset_eq]
  rcases option_rel_cases (h.childTowards wf wf' ha.container hb.container) with
    ⟨hc, hc'⟩ | ⟨c, c', hc, hc', hcc⟩
  · rw [hc, hc']
  · rw [hc, hc']
    dsimp only
    rw [h.childIndex?_eq hcc]

/-- **The order of boundaries** is the same. -/
theorem compare_eq (ha : a.Corresponds M a') (hb : b.Corresponds M b') :
    a'.compare g b' = a.compare f b := by
  have hcontainer := h.eq_iff ha.container hb.container
  unfold Boundary.compare
  rw [ha.offset_eq, hb.offset_eq, h.compareOrder_eq wf wf' ha.container hb.container,
    h.compareForward_eq wf wf' ha hb, h.compareForward_eq wf wf' hb ha]
  by_cases e : a.container = b.container
  · rw [if_pos e, if_pos (hcontainer.mpr e)]
  · rw [if_neg e, if_neg (mt hcontainer.mp e)]

theorem make (ha : a.Corresponds M a') (hb : b.Corresponds M b') :
    Agrees (Range.Corresponds M) (Range.make f a b) (Range.make g a' b') := by
  rw [Range.make, Range.make, h.check_eq ha, h.check_eq hb, h.compare_eq wf wf' ha hb]
  cases a.check f with
  | error e => exact .error e
  | ok =>
    cases b.check f with
    | error e => exact .error e
    | ok =>
      cases a.compare f b with
      | error e => exact .error e
      | ok o =>
        cases o
        · exact .ok ⟨ha, hb⟩
        · exact .ok ⟨ha, hb⟩
        · exact .ok (.point ha)

/-! ## Visible characters -/

section Characters

omit wf wf'

theorem placesOf (hn : M n n') :
    List.Forall₂ (Place.Moves (Boundary.Corresponds M)) (f.placesOf n) (g.placesOf n') := by
  rw [Forest.placesOf, Forest.placesOf, h.characters_eq hn]
  exact List.forall₂_map_left_iff.mpr (List.forall₂_map_right_iff.mpr
    (List.forall₂_same.mpr fun _ _ => ⟨rfl, ⟨hn, rfl⟩, ⟨hn, rfl⟩⟩))

end Characters

theorem shownTexts (hn : M n n') : List.Forall₂ M (f.shownTexts n) (g.shownTexts n') :=
  forall₂_filter (h.preorder wf wf' hn) fun _ _ ht => h.isShown_eq ht

/-- **The visible characters** are the same. -/
theorem places (hn : M n n') :
    List.Forall₂ (Place.Moves (Boundary.Corresponds M)) (f.places n) (g.places n') :=
  List.rel_flatMap (h.shownTexts wf wf' hn) fun _ _ ht => h.placesOf ht

theorem endOfText (hn : M n n') : (f.endOfText n).Corresponds M (g.endOfText n') := by
  rw [Forest.endOfText, Forest.endOfText, lastShown?, lastShown?]
  rcases option_rel_cases (forall₂_getLast? (h.shownTexts wf wf' hn)) with
    ⟨ht, ht'⟩ | ⟨t, t', ht, ht', htt⟩
  · rw [ht, ht']
    exact ⟨hn, rfl⟩
  · rw [ht, ht']
    exact ⟨htt, h.length_eq htt⟩

/-! ## Counted characters -/

/-- **The ranges of counted characters** are the same. -/
theorem stringRange (hn : M n n') (start length : Int) :
    Agrees (Option.Rel (Range.Corresponds M)) (f.stringRange n start length)
      (g.stringRange n' start length) := by
  obtain ⟨hhas, hhas'⟩ := h.has n n' hn
  refine (stringRange_moved wf wf' hhas hhas' (h.places wf wf' hn) (h.endOfText wf wf' hn) start
    length).mono fun r r' hr => ?_
  cases hr with
  | none => exact .none
  | some hr => exact .some ⟨hr.1, hr.2⟩

variable {p p' : Place} {t t' : Node}

theorem countStep {s s' : BoundaryCount} (ht : M t t') (i : Nat) (hs : s.Corresponds M s')
    (hp : p.Moves (Boundary.Corresponds M) p') : StopsAlike Eq (BoundaryCount.Corresponds M)
      (f.countStep t i s p) (g.countStep t' i s' p') := by
  have hnode : M p.node p'.node := hp.before.container
  have hindex : p'.index = p.index := hp.before.offset_eq
  have hcurrent : s'.current = some t' ↔ s.current = some t :=
    option_rel_some_iff h.one_to_one hs.current ht
  have hsame : s'.current = some p'.node ↔ s.current = some p.node :=
    option_rel_some_iff h.one_to_one hs.current hnode
  simp only [Forest.countStep, h.eq_iff hnode ht, hindex, hp.char_eq, hs.counter_eq, hcurrent,
    hsame, h.compareOrder_eq wf wf' ht hnode]
  split
  · split
    · exact .stop rfl
    · exact .go ⟨.some ht, rfl⟩
  · split
    · exact .stop rfl
    · split
      · exact .go ⟨hs.current, rfl⟩
      · split
        · exact .stop rfl
        · exact .stop rfl
        · exact .go ⟨.some hnode, rfl⟩

/-- **The number of characters before a boundary** is the same. -/
theorem countBefore_eq (hn : M n n') (ht : M t t') (i : Nat) :
    g.countBefore n' t' i = f.countBefore n t i := by
  have hrun : StopsAlike Eq (BoundaryCount.Corresponds M)
      ((f.places n).foldlM (f.countStep t i) ⟨none, .start⟩)
      ((g.places n').foldlM (g.countStep t' i) ⟨none, .start⟩) :=
    .foldlM (h.places wf wf' hn) (fun _ _ _ _ hs hp => h.countStep wf wf' ht i hs hp) ⟨.none, rfl⟩
  rw [countBefore, countBefore, visitPlaces_eq, visitPlaces_eq, h.isAncestor_eq wf wf' hn ht]
  generalize (f.places n).foldlM (f.countStep t i) ⟨none, .start⟩ = a,
    (g.places n').foldlM (g.countStep t' i) ⟨none, .start⟩ = b at hrun
  cases hrun with
  | stop e => exact e.symm
  | go hs =>
    simp only [option_rel_some_iff h.one_to_one hs.current ht, hs.counter_eq]

end Forest.Copied

/-! ## Documents -/

/-- Documents whose trees are the same, and in which tags are the same as they are compared. -/
structure Document.Twins (f g : Forest) (d d' : Document) (M : Node → Node → Prop) : Prop where
  wf : f.WellFormed
  wf' : g.WellFormed
  copied : f.Copied g M
  root : M d.root d'.root
  flavor_eq : d'.flavor = d.flavor
  tag_eq : ∀ n n', M n n' → d'.tagOf? g n' = d.tagOf? f n

namespace Document.Twins

variable {f g : Forest} {d d' : Document} {M : Node → Node → Prop} {n n' : Node}
  (h : Document.Twins f g d d' M)

include h

theorem hasTag_eq (hn : M n n') (tag : String) : d'.hasTag g tag n' = d.hasTag f tag n := by
  rw [hasTag, hasTag, (h.copied.same n n' hn).isElement_eq, h.tag_eq n n' hn]

/-- **A twin answers an evaluation alike**, about places that correspond. -/
theorem correspondence : Correspondence f g d d' M (Range.Corresponds M) where
  root := h.root
  one_to_one := h.copied.one_to_one
  flavor_eq := h.flavor_eq
  isElement_eq := fun n n' hn => (h.copied.same n n' hn).isElement_eq
  tag_eq := h.tag_eq
  elements := fun _ _ hp => forall₂_filter (h.copied.spliced h.wf h.wf' hp) fun c c' hc =>
    (h.copied.same c c' hc).isElement_eq
  parent := fun _ _ hn => h.copied.effectiveParent h.wf h.wf' hn
  byId := h.copied.elementById h.wf h.wf' h.root
  around := fun _ _ hn => h.copied.rangeAround hn
  make := fun _ _ _ _ hr hs => h.copied.make h.wf h.wf' hr.start hs.stop
  collapse := fun _ _ toStart hr => hr.collapse toStart
  stringRange := fun _ _ start length hn => h.copied.stringRange h.wf h.wf' hn start length

end Document.Twins

end TreePointer
