import TreePointer.Proofs.Decoration.Resolution

/-!
# The address of an element stays the same

The address of an element asks for ids, for the ancestors that are not ignored, and for the numbers
of elements among spliced children. Decoration changes none of these, so it changes no such address.

* `Transparent.effectiveAncestors_eq`, `positionOf?_congr`: the ancestors and the numbers.
* `Faithful.elementPath_eq`: the address.
-/

namespace TreePointer

namespace Forest

variable {f g : Forest} {r p n : Node} {accept accept' : Node → Bool}

/-- The ancestors that are not ignored stay. -/
theorem Transparent.effectiveAncestors_eq (h : Transparent f g r) (wf : f.WellFormed)
    (wf' : g.WellFormed) (hn : f.Has n) : g.effectiveAncestors n = f.effectiveAncestors n := by
  generalize habove : f.effectiveAncestors n = above
  induction above generalizing n with
  | nil =>
    have hnone := h.parent_eq n hn
    rw [effectiveParent?_eq, effectiveParent?_eq, habove, List.head?_nil] at hnone
    exact List.head?_eq_none_iff.mp hnone
  | cons p above ih =>
    obtain ⟨hp, hpabove⟩ := wf.effectiveAncestors_eq_cons habove
    have hphas := wf.has_of_mem (effectiveParent?_spec hp).1
    rw [wf'.effectiveAncestors_cons ((h.parent_eq n hn).trans hp), ih hphas hpabove]

/-- On the way to an element only elements are counted. -/
theorem foldlM_positionStep (ns : List Node) (seen : Nat) (hn : f.isElement n = true)
    (h : ∀ c ∈ ns, accept c = true → f.isElement c = true) :
    ns.foldlM (positionStep accept n) seen
      = (ns.filter f.isElement).foldlM (positionStep accept n) seen := by
  induction ns generalizing seen with
  | nil => rfl
  | cons c ns ih =>
    have ih' := fun seen => ih seen fun m hm => h m (List.mem_cons_of_mem c hm)
    by_cases hc : f.isElement c = true
    · rw [List.filter_cons_of_pos hc, List.foldlM_cons, List.foldlM_cons]
      congr 1
      funext seen'
      exact ih' seen'
    · have ha : accept c = false := by
        rw [Bool.eq_false_iff]
        exact fun ha => hc (h c List.mem_cons_self ha)
      have hne : c ≠ n := by
        rintro rfl
        exact hc hn
      have hstep : positionStep accept n seen c = .ok seen := by
        rw [positionStep, ha, if_neg hne]
        rfl
      rw [List.filter_cons_of_neg hc, List.foldlM_cons, hstep]
      exact ih' seen

theorem foldlM_positionStep_congr {ns : List Node} {seen : Nat}
    (h : ∀ c ∈ ns, accept' c = accept c) :
    ns.foldlM (positionStep accept' n) seen = ns.foldlM (positionStep accept n) seen := by
  induction ns generalizing seen with
  | nil => rfl
  | cons c ns ih =>
    have hstep : positionStep accept' n seen c = positionStep accept n seen c := by
      rw [positionStep, positionStep, h c List.mem_cons_self]
    rw [List.foldlM_cons, List.foldlM_cons, hstep]
    congr 1
    funext seen'
    exact ih fun m hm => h m (List.mem_cons_of_mem c hm)

/-- The number of an element depends on the elements among the children alone. -/
theorem positionOf?_congr (hn : f.isElement n = true) (hn' : g.isElement n = true)
    (h : (g.spliced p).filter g.isElement = (f.spliced p).filter f.isElement)
    (helement : ∀ c, accept c = true → f.isElement c = true)
    (helement' : ∀ c, accept' c = true → g.isElement c = true)
    (haccept : ∀ c ∈ (f.spliced p).filter f.isElement, accept' c = accept c) :
    g.positionOf? p n accept' = f.positionOf? p n accept := by
  rw [positionOf?, positionOf?, visitSpliced_eq, visitSpliced_eq,
    foldlM_positionStep _ _ hn fun c _ => helement c,
    foldlM_positionStep _ _ hn' fun c _ => helement' c, h, foldlM_positionStep_congr haccept]

end Forest

namespace Decoration

open Forest Address

variable {f : Forest} {d : Document} {s : State} {o : Options} {n p : Node}

namespace Faithful

variable (hd : d.Rooted f) (h : Faithful f d s)

include hd h

theorem content_eq (hn : d.Reaches f n) : s.forest.content n = f.content n :=
  h.transparent.content_eq n (hd.wellFormed.has_of_within hd.has_root hn.1) hn.2

theorem idReference?_eq (hn : d.Reaches f n) :
    idReference? s.forest d n = idReference? f d n := by
  have hcontent := h.content_eq hd hn
  have helement := h.transparent.isElement_eq (hd.wellFormed.has_of_within hd.has_root hn.1)
  unfold idReference?
  simp only [helement, isIgnored_congr hcontent, attribute?_congr hcontent, h.elementById?_eq]

theorem pathStep_eq (hn : d.Reaches f n) (hp : d.Reaches f p) :
    pathStep s.forest d p n = pathStep f d p n := by
  have wf := hd.wellFormed
  have hhas := wf.has_of_within hd.has_root hn.1
  have hphas := wf.has_of_within hd.has_root hp.1
  have htag := h.tagOf?_eq hd hn
  unfold pathStep tagOf
  rw [htag, h.transparent.kind_eq n hhas]
  cases hname : d.tagOf? f n with
  | none => rfl
  | some tag =>
    have helement := Document.isElement_of_tagOf? hname
    have hposition : s.forest.positionOf? p n (d.hasTag s.forest tag)
        = f.positionOf? p n (d.hasTag f tag) := by
      refine positionOf?_congr helement ((h.transparent.isElement_eq hhas).trans helement)
        (h.transparent.elements_eq p hphas) (fun c hc => (Bool.and_eq_true_iff.mp hc).1)
        (fun c hc => (Bool.and_eq_true_iff.mp hc).1) fun c hc => ?_
      obtain ⟨hmem, hc⟩ := List.mem_filter.mp hc
      have hw := wf.within_trans hp.1 (wf.within_of_mem_spliced hphas hmem)
      have hcr := Document.reaches_of_isElement hw hc
      rw [Document.hasTag, Document.hasTag, h.tagOf?_eq hd hcr,
        h.transparent.isElement_eq (wf.has_of_within hd.has_root hw)]
    simp only [hposition, bind, Except.bind]

theorem pathThrough_eq (hn : d.Reaches f n) (below : List String) {above : List Node}
    (habove : f.effectiveAncestors n = above) :
    pathThrough s.forest d o n below above = pathThrough f d o n below above := by
  induction above generalizing n below with
  | nil => rfl
  | cons p above ih =>
    obtain ⟨hp, hpabove⟩ := hd.wellFormed.effectiveAncestors_eq_cons habove
    have hpr := hd.reaches_effectiveParent hn.1 hp
    have hthrough := fun below => ih hpr below hpabove
    have helement := h.transparent.isElement_eq (hd.wellFormed.has_of_within hd.has_root hpr.1)
    simp only [pathThrough, h.pathStep_eq hd hn hpr, h.idReference?_eq hd hpr, helement, hthrough]

/-- **The address of an element** stays the same. -/
theorem elementPath_eq (hn : f.Within d.root n) (helement : f.isElement n = true) :
    elementPath s.forest d o n = elementPath f d o n := by
  have hnr := Document.reaches_of_isElement hn helement
  have hhas := has_of_isElement helement
  have hkind := kind_ne_document_of_isElement helement
  have habove := h.transparent.effectiveAncestors_eq hd.wellFormed h.rooted.wellFormed hhas
  rw [elementPath, elementPath, if_neg hkind, if_neg (by rwa [h.transparent.kind_eq n hhas]),
    h.idReference?_eq hd hnr, habove, h.pathThrough_eq hd hnr [] rfl]

theorem stringRange_eq (hn : f.Within d.root n) (helement : f.isElement n = true)
    (start length : Nat) :
    Address.stringRange s.forest d o n start length = Address.stringRange f d o n start length := by
  rw [Address.stringRange, Address.stringRange, h.elementPath_eq hd hn helement]

end Faithful

end Decoration

end TreePointer
