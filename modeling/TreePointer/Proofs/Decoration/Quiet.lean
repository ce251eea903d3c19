import TreePointer.Proofs.Decoration.Transparent

/-!
# Decorating is quiet

Each of the edits by which a forest is decorated puts something in the place of something that reads
the same: a wrapper shows what its element shows, the parts of a text show what the text showed and
the marked element between them shows nothing, and nothing is shown of what is written into a marked
element.

* `wrap_quiet`, `Marked.quiet`, `write_quiet`: the three edits go unnoticed.
-/

namespace TreePointer.Forest

variable {f g : Forest} {p n : Node} {left right : List Node}

theorem outlineOf_of_not_shown {was : Forest} (hwas : ¬ was.Has n) (h : f.isShown n = false) :
    outlineOf was f n = [] := by
  rw [outlineOf, if_neg hwas, h]
  rfl

theorem outline_of_leaf (wf : f.WellFormed) (was : Forest) (hn : f.Has n) (h : f.children n = []) :
    outline was f n = outlineOf was f n := by
  rw [outline_eq wf was hn, h, List.flatMap_nil, List.append_nil]

theorem not_isElement_of_isText (h : f.isText n = true) : f.isElement n = false := by
  rw [isElement, kind_of_isText h]
  rfl

theorem children_of_isText (wf : f.WellFormed) (h : f.isText n = true) : f.children n = [] := by
  refine wf.children_of_not_container ?_
  rw [kind_of_isText h]
  rfl

theorem outline_of_isText (wf : f.WellFormed) (was : Forest) (h : f.isText n = true) :
    outline was f n = outlineOf was f n :=
  outline_of_leaf wf was (has_of_isText h) (children_of_isText wf h)

/-- A text is no element. -/
theorem elementsAt_of_isText (h : f.isText n = true) : f.elementsAt n = [] := by
  have helement := not_isElement_of_isText h
  have hi : f.isIgnored n = false := by
    rw [isIgnored, hasMark, helement, Bool.false_and]
  rw [elementsAt, hi, List.filter_cons, helement]
  rfl

/-- In the place of an ignored element stand those of its children. -/
theorem elementsAt_of_isIgnored (wf : f.WellFormed) (hn : f.Has n) (h : f.isIgnored n = true) :
    f.elementsAt n = (f.children n).flatMap f.elementsAt := by
  rw [elementsAt, if_pos h, filter_spliced wf hn]

theorem isShown_of_parent (h : f.parent n = some p) :
    f.isShown n = (f.isText n && !f.isMarked p) := by
  rw [isShown, h, Option.any_some]

/-! ## The edits -/

/-- **Wrapping an element** goes unnoticed. -/
theorem wrap_quiet (wf : f.WellFormed) (hn : f.isElement n = true)
    (hsplit : f.children p = left ++ n :: right) (tag : String) :
    ∃ g, f.wrap n tag = (.ok f.fresh, g) ∧ g.content f.fresh = markedRecord tag ∧
      (∀ m, g.Has m ↔ f.Has m ∨ m = f.fresh) ∧
      Unnoticed f g p left [n] [f.fresh] right [] := by
  obtain ⟨g, hwrap, hr, hhas, hmarked, hchild, hcontent⟩ := wrap_eq wf hsplit tag
  have wf' := hr.wellFormed
  have hx := (hhas f.fresh).mpr (Or.inr rfl)
  have hxp : f.fresh ∈ g.children p := hr.children_new ▸ List.mem_append_right _ List.mem_cons_self
  have hnx : n ∈ g.children f.fresh := hchild ▸ List.mem_singleton_self n
  have hignored := isIgnored_of_marked hmarked
  refine ⟨g, hwrap, hmarked, hhas, hr, fun _ h => (List.not_mem_nil h).elim,
    fun _ h => (List.not_mem_nil h).elim, fun m hm _ => ?_, fun m hm _ => ?_, fun m hm => ?_,
    fun h => ?_, fun h => ?_, fun m hm helement => ?_, ?_⟩
  · rw [List.mem_singleton.mp hm]
    exact hn
  · by_cases hmn : m = n
    · rw [hmn, hcontent]
    · exact hr.content_eq m hm fun e => hmn (List.mem_singleton.mp e)
  · rw [List.mem_singleton.mp hm, wf'.effectiveParent?_of_parent (wf'.parent_of_mem hnx),
      if_pos hignored, wf'.effectiveParent?_of_parent (wf'.parent_of_mem hxp)]
  · rw [List.flatMap_singleton, List.flatMap_singleton, outline_eq wf' f hx,
      outlineOf_of_not_shown f.not_has_fresh (not_isShown_of_isElement (isElement_of_marked hmarked)),
      hchild, List.flatMap_singleton, List.nil_append]
    exact h n (List.mem_singleton_self n) List.not_mem_nil
  · rw [List.flatMap_singleton, List.flatMap_singleton, elementsAt_of_isIgnored wf' hx hignored,
      hchild, List.flatMap_singleton]
    exact h n (List.mem_singleton_self n) List.not_mem_nil
  · obtain hold | rfl := (hhas m).mp (has_of_isElement helement)
    · exact absurd hold hm
    · exact attribute?_of_marked hmarked
  · exact Or.inr ⟨n, f.fresh, rfl, rfl, hn, isElement_of_marked hmarked, hchild⟩

theorem Marked.isText_tail {t x u : Node} {k : Nat} {tag : String}
    (hm : Marked f g p t x u k tag) : g.isText u = true := isText_of_textRecord hm.content_tail

theorem Marked.characters_tail {t x u : Node} {k : Nat} {tag : String}
    (hm : Marked f g p t x u k tag) : g.characters u = (f.characters t).drop k :=
  characters_of_textRecord hm.content_tail

/-- A text among the new children is shown where the replaced one was. -/
theorem Replaced.isShown_new {t m : Node} {new : List Node}
    (hr : Replaced f g p left [t] new right) (wf : f.WellFormed) (ht : f.isText t = true)
    (hmt : g.isText m = true) (hmp : g.parent m = some p) : g.isShown m = f.isShown t := by
  have htp := hr.mem_old (List.mem_singleton_self t)
  have hpt : f.parent t = some p := wf.parent_of_mem htp
  have hpcontent : g.content p = f.content p :=
    hr.content_eq p (wf.has_of_mem_children htp) fun e =>
      wf.ne_of_mem_children htp (List.mem_singleton.mp e).symm
  rw [isShown_of_parent hmp, isShown_of_parent hpt, hmt, ht, isMarked_congr hpcontent]

section Parts

variable {t x u : Node} {k : Nat} {tag : String} (wf : f.WellFormed) (ht : f.isText t = true)
  (hr : Replaced f g p left [t] [t, x, u] right) (hm : Marked f g p t x u k tag)

include wf ht hr hm

/-- The parts of the text and what is between them read as the text did. -/
theorem Marked.outline_parts :
    [t, x, u].flatMap (outline f g) = [t].flatMap (outline f f) := by
  have wf' := hr.wellFormed
  have hu := hm.isText_tail
  have hx := isElement_of_marked hm.content_marker
  have htg : outline f g t = .inl t :: (if f.isShown t then ((f.characters t).take k).map .inr
      else []) := by
    rw [outline_of_isText wf' f hm.isText_text, outlineOf, if_pos (has_of_isText ht),
      hr.isShown_new wf ht hm.isText_text hm.parent_text, hm.characters_text]
    rfl
  have hxg : outline f g x = [] := by
    rw [outline_of_leaf wf' f (has_of_isElement hx) hm.children_marker,
      outlineOf_of_not_shown hm.not_has_marker (not_isShown_of_isElement hx)]
  have hug : outline f g u = if f.isShown t then ((f.characters t).drop k).map .inr else [] := by
    rw [outline_of_isText wf' f hu, outlineOf, if_neg hm.not_has_tail,
      hr.isShown_new wf ht hu hm.parent_tail, hm.characters_tail, List.nil_append]
  have htf : outline f f t = .inl t :: (if f.isShown t then (f.characters t).map .inr
      else []) := by
    rw [outline_of_isText wf f ht, outlineOf, if_pos (has_of_isText ht)]
    rfl
  rw [List.flatMap_cons, List.flatMap_cons, List.flatMap_singleton, List.flatMap_singleton, htg,
    hxg, hug, htf, List.nil_append, List.cons_append]
  congr 1
  split
  · rw [← List.map_append, List.take_append_drop]
  · rfl

/-- **Cutting a text** of an element around a marked element goes unnoticed. -/
theorem Marked.quiet (hp : f.isElement p = true) :
    Unnoticed f g p left [t] [t, x, u] right [t] := by
  have wf' := hr.wellFormed
  have hu := hm.isText_tail
  have hx := isElement_of_marked hm.content_marker
  refine ⟨hr, fun _ h => h, fun m h => ?_, fun m h h' => absurd h h', fun m hmhas h => ?_,
    fun m h => ?_, fun _ => hm.outline_parts wf ht hr, fun _ => ?_, fun m h helement => ?_,
    Or.inl hp⟩
  · rw [List.mem_singleton.mp h]
    exact ⟨ht, hm.isText_text⟩
  · exact hr.content_eq m hmhas h
  · rw [List.mem_singleton.mp h, wf'.effectiveParent?_of_parent hm.parent_text]
  · rw [List.flatMap_cons, List.flatMap_cons, List.flatMap_singleton, List.flatMap_singleton,
      elementsAt_of_isText hm.isText_text, elementsAt_of_isText hu, elementsAt_of_isText ht,
      elementsAt_of_isIgnored wf' (has_of_isElement hx) (isIgnored_of_marked hm.content_marker),
      hm.children_marker]
    rfl
  · obtain hold | rfl | rfl := (hm.has_iff m).mp (has_of_isElement helement)
    · exact absurd hold h
    · exact attribute?_of_marked hm.content_marker
    · rw [not_isElement_of_isText hu] at helement
      cases helement

end Parts

/-- **Writing into a marked element** goes unnoticed. -/
theorem write_quiet (wf : f.WellFormed) (hp : f.isElement p = true) (hmarked : f.isMarked p = true)
    (text : String) :
    ∃ g, (f.addText text).1.append p f.fresh = (.ok (), g) ∧
      (∀ m, g.Has m ↔ f.Has m ∨ m = f.fresh) ∧ g.isShown f.fresh = false ∧
      Unnoticed f g p (f.children p) [] [f.fresh] [] [] := by
  obtain ⟨g, happend, hr, hhas, htext, -⟩ := write_eq wf hp text
  have wf' := hr.wellFormed
  have hu : g.isText f.fresh = true := by
    rw [isText, kind_eq_content, htext]
    rfl
  have hup : g.parent f.fresh = some p :=
    wf'.parent_of_mem (hr.children_new ▸ List.mem_append_right _ List.mem_cons_self)
  have hcontent := hr.content_eq p (has_of_isElement hp) List.not_mem_nil
  have hhidden : g.isShown f.fresh = false := by
    rw [isShown_of_parent hup, isMarked_congr hcontent, hmarked, Bool.not_true, Bool.and_false]
  have hnil : ∀ {m : Node} {q : Prop}, m ∈ ([] : List Node) → q := fun h =>
    (List.not_mem_nil h).elim
  refine ⟨g, happend, hhas, hhidden, hr, fun _ => hnil, fun _ => hnil, fun _ => hnil,
    fun m hm h => hr.content_eq m hm h, fun _ => hnil, fun _ => ?_, fun _ => ?_,
    fun m hm helement => ?_, Or.inl hp⟩
  · rw [List.flatMap_singleton, List.flatMap_nil, outline_of_isText wf' f hu,
      outlineOf_of_not_shown f.not_has_fresh hhidden]
  · rw [List.flatMap_singleton, List.flatMap_nil, elementsAt_of_isText hu]
  · obtain hold | rfl := (hhas m).mp (has_of_isElement helement)
    · exact absurd hold hm
    · rw [not_isElement_of_isText hu] at helement
      cases helement

end TreePointer.Forest
