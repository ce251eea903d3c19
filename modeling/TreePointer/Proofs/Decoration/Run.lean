import Mathlib.Logic.Relation
import TreePointer.Proofs.Address.Path
import TreePointer.Proofs.Decoration.Quiet

/-!
# Runs of the decoration

A document is decorated by one edit after the other: an element is wrapped, a text of an element is
cut around a marked element, a text is written into a marked element made before. Edits may be
refused and may be about what earlier ones made. Along such a run it is kept in mind which elements
were made, and which part of which text of the first forest every text is.

* `Step`: one edit. `Decorated f s`: some edits after another lead from `f` to `s`.
* `Step.effect`: an edit is refused, or puts something around, into or between what is there.
* `Faithful`: the invariant. `Decorated.faithful`: it holds along every run.
-/

namespace TreePointer

namespace Decoration

open Forest

/-- A forest in the course of its decoration. -/
structure State where
  forest : Forest
  /-- The elements that were made. -/
  made : List Node
  /-- The text that a text is a part of, and where in it the part starts. -/
  piece : Node → Option (Node × Nat)

/-- Before the first edit every text is the whole of itself. -/
def State.start (f : Forest) : State :=
  ⟨f, [], fun t => if f.isText t then some (t, 0) else none⟩

/-- The parts after a text was cut. Its second part is the next new node. -/
def State.cut (s : State) (t : Node) (k : Nat) (n : Node) : Option (Node × Nat) :=
  if n = s.forest.fresh then (s.piece t).map fun (whole, i) => (whole, i + k) else s.piece n

/-- One edit, with whatever it gives. -/
inductive Step : State → State → Prop
  | wrap {s : State} (n : Node) (tag : String) {result : Except Fault Node} {g : Forest}
      (element : s.forest.isElement n = true) (edit : s.forest.wrap n tag = (result, g)) :
      Step s ⟨g, result.toOption.toList ++ s.made, s.piece⟩
  | mark {s : State} (t : Node) (k : Nat) (tag : String) {p : Node} {result : Except Fault Node}
      {g : Forest}
      (text : s.forest.isText t = true) (above : s.forest.parent t = some p)
      (element : s.forest.isElement p = true) (edit : s.forest.insertMarked t k tag = (result, g)) :
      Step s ⟨g, result.toOption.toList ++ s.made,
        if result.toOption.isSome then s.cut t k else s.piece⟩
  | write {s : State} (x : Node) (text : String) {result : Except Fault Unit} {g : Forest}
      (made : x ∈ s.made)
      (edit : (s.forest.addText text).1.append x (s.forest.addText text).2 = (result, g)) :
      Step s ⟨g, s.made, s.piece⟩

/-- Some edits lead from a forest to a state. -/
def Decorated (f : Forest) (s : State) : Prop :=
  Relation.ReflTransGen Step (State.start f) s

/-- What was made is an element with marks. -/
def State.MadeMarked (s : State) : Prop :=
  ∀ x ∈ s.made, s.forest.isElement x = true ∧ s.forest.isMarked x = true

/-! ## What an edit does -/

/-- A text is cut within its length, or nothing happens. -/
theorem insertMarked_result {f g : Forest} {t : Node} {k : Nat} {tag : String}
    {result : Except Fault Node} (h : f.insertMarked t k tag = (result, g)) :
    k ≤ (f.characters t).length ∨ (∃ e, result = .error e) ∧ g = f := by
  rcases Nat.lt_or_ge (f.characters t).length k with hlt | hge
  · obtain ⟨e, he⟩ := insertMarked_refused (t := t) (Or.inr (Or.inr hlt)) tag
    rw [he, Prod.mk.injEq] at h
    exact Or.inr ⟨⟨e, h.1.symm⟩, h.2.symm⟩
  · exact Or.inl hge

/-- What was made before or is a marked element. -/
def MadeBy (s s' : State) : Prop :=
  ∀ x ∈ s'.made, x ∈ s.made ∨ ∃ tag, s'.forest.content x = markedRecord tag

/-- What an edit has done. -/
inductive Effect (s s' : State) : Prop
  /-- It was refused, and nothing was done. -/
  | refused (forest : s'.forest = s.forest) (made : s'.made = s.made) (piece : s'.piece = s.piece)
  /-- Something that shows no text of its own was put around or into an element. -/
  | shelled {p : Node} {left old new right : List Node}
      (quiet : Unnoticed s.forest s'.forest p left old new right [])
      (hidden : ∀ n, ¬ s.forest.Has n → s'.forest.isShown n = false) (made : MadeBy s s')
      (piece : s'.piece = s.piece)
  /-- A text was cut around a marked element. -/
  | cut {t p x : Node} {k : Nat} {tag : String} {left right : List Node}
      (text : s.forest.isText t = true) (element : s.forest.isElement p = true)
      (within : k ≤ (s.forest.characters t).length)
      (replaced : Replaced s.forest s'.forest p left [t] [t, x, s.forest.fresh] right)
      (marked : Marked s.forest s'.forest p t x s.forest.fresh k tag) (made : MadeBy s s')
      (piece : s'.piece = s.cut t k)

/-- Where the one new node is not shown, no node is that was not there before. -/
theorem not_isShown_new {f g : Forest} {x : Node} (hhas : ∀ m, g.Has m ↔ f.Has m ∨ m = x)
    (hx : g.isShown x = false) (n : Node) (hn : ¬ f.Has n) : g.isShown n = false := by
  cases hshown : g.isShown n with
  | false => rfl
  | true =>
    obtain hold | rfl := (hhas n).mp (has_of_isText (isText_of_isShown hshown))
    · exact absurd hold hn
    · rw [hx] at hshown
      cases hshown

/-- **An edit** does one of these. -/
theorem Step.effect {s s' : State} (h : Step s s') (wf : s.forest.WellFormed)
    (hmade : s.MadeMarked) : Effect s s' := by
  cases h with
  | @wrap n tag result g element edit =>
    cases hp : s.forest.parent n with
    | none =>
      rw [wrap_refused hp, Prod.mk.injEq] at edit
      obtain ⟨rfl, rfl⟩ := edit
      exact .refused rfl rfl rfl
    | some p =>
      obtain ⟨left, right, hsplit⟩ := List.append_of_mem (wf.mem_of_parent hp)
      obtain ⟨g', hwrap, hmarked, hhas, hquiet⟩ := wrap_quiet wf element hsplit tag
      rw [hwrap, Prod.mk.injEq] at edit
      obtain ⟨rfl, rfl⟩ := edit
      have hhidden := not_isShown_of_isElement (isElement_of_marked hmarked)
      refine .shelled hquiet (not_isShown_new hhas hhidden) (fun x hx => ?_) rfl
      obtain rfl | hold := List.mem_cons.mp hx
      · exact Or.inr ⟨tag, hmarked⟩
      · exact Or.inl hold
  | @mark t k tag p result g text above element edit =>
    obtain hk | ⟨⟨e, rfl⟩, rfl⟩ := insertMarked_result edit
    · obtain ⟨left, right, hsplit⟩ := List.append_of_mem (wf.mem_of_parent above)
      obtain ⟨g', x, hinsert, hr, hm⟩ := insertMarked_eq wf text hk hsplit tag
      rw [hinsert, Prod.mk.injEq] at edit
      obtain ⟨rfl, rfl⟩ := edit
      refine .cut text element hk hr hm (fun y hy => ?_) rfl
      obtain rfl | hold := List.mem_cons.mp hy
      · exact Or.inr ⟨tag, hm.content_marker⟩
      · exact Or.inl hold
    · exact .refused rfl rfl rfl
  | @write x text result g made edit =>
    obtain ⟨helement, hmarked⟩ := hmade x made
    obtain ⟨g', happend, hhas, hhidden, hquiet⟩ := write_quiet wf helement hmarked text
    have htail : (s.forest.addText text).2 = s.forest.fresh := rfl
    rw [htail, happend, Prod.mk.injEq] at edit
    obtain ⟨rfl, rfl⟩ := edit
    exact .shelled hquiet (not_isShown_new hhas hhidden) (fun y hy => Or.inl hy) rfl

/-- What was done went unnoticed. -/
theorem Effect.unnoticed {s s' : State} (h : Effect s s') (wf : s.forest.WellFormed) :
    (s'.forest = s.forest ∧ s'.made = s.made) ∨
      (∃ p left old new right cut, Unnoticed s.forest s'.forest p left old new right cut) ∧
        MadeBy s s' := by
  cases h with
  | refused hforest hmade _ => exact Or.inl ⟨hforest, hmade⟩
  | shelled hquiet _ hmade _ => exact Or.inr ⟨⟨_, _, _, _, _, _, hquiet⟩, hmade⟩
  | cut htext helement _ hr hm hmade _ =>
    exact Or.inr ⟨⟨_, _, _, _, _, _, hm.quiet wf htext hr helement⟩, hmade⟩

/-! ## The invariant -/

/-- The decorated forest is a document as before, in which no address notices a difference. -/
structure Faithful (f : Forest) (d : Document) (s : State) : Prop where
  rooted : d.Rooted s.forest
  transparent : Transparent f s.forest d.root
  made : s.MadeMarked

theorem Faithful.start {f : Forest} {d : Document} (hd : d.Rooted f) :
    Faithful f d (State.start f) :=
  ⟨hd, .refl hd.wellFormed hd.has_root, fun _ h => (List.not_mem_nil h).elim⟩

/-- The root stays where it is. -/
theorem rooted_of_unnoticed {f g : Forest} {d : Document} {p : Node}
    {left old new right cut : List Node} (hd : d.Rooted f)
    (h : Unnoticed f g p left old new right cut) : d.Rooted g := by
  have hroot : d.root ∉ old := by
    intro hold
    have hp := hd.wellFormed.parent_of_mem (h.replaced.mem_old hold)
    rw [hd.parent_root] at hp
    cases hp
  exact ⟨h.replaced.wellFormed, h.replaced.has _ hd.has_root,
    (h.kind_eq hd.has_root).trans hd.kind_root,
    (h.replaced.parent_eq _ hd.has_root hroot).trans hd.parent_root⟩

/-- **An edit** keeps the decoration faithful. -/
theorem Faithful.step {f : Forest} {d : Document} {s s' : State} (hd : d.Rooted f)
    (h : Faithful f d s) (hs : Step s s') : Faithful f d s' := by
  have wf := h.rooted.wellFormed
  obtain ⟨hforest, hmade⟩ | ⟨⟨p, left, old, new, right, cut, hquiet⟩, hmade⟩ :=
    (hs.effect wf h.made).unnoticed wf
  · refine ⟨hforest ▸ h.rooted, hforest ▸ h.transparent, fun x hx => ?_⟩
    rw [hforest]
    exact h.made x (hmade ▸ hx)
  · have hedit := hquiet.transparent wf h.rooted.has_root h.rooted.kind_root
    refine ⟨rooted_of_unnoticed h.rooted hquiet,
      h.transparent.trans hedit hd.wellFormed wf hd.has_root, fun x hx => ?_⟩
    obtain hold | ⟨tag, hmarked⟩ := hmade x hx
    · obtain ⟨helement, hmarked⟩ := h.made x hold
      have hhas := has_of_isElement helement
      have hcontent := hedit.content_eq x hhas (not_isText_of_isElement helement)
      exact ⟨(hedit.isElement_eq hhas).trans helement, (isMarked_congr hcontent).trans hmarked⟩
    · exact ⟨isElement_of_marked hmarked, isMarked_of_marked hmarked⟩

/-- **Every decoration is faithful.** -/
theorem Decorated.faithful {f : Forest} {d : Document} {s : State} (hd : d.Rooted f)
    (h : Decorated f s) : Faithful f d s := by
  induction h with
  | refl => exact .start hd
  | tail _ hs ih => exact ih.step hd hs

end Decoration

end TreePointer
