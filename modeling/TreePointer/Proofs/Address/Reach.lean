import TreePointer.Proofs.Address.Path

/-!
# The nodes an evaluation comes to

An evaluation starts at the root and goes on to children, to parents and to elements with an id. All
of these lie in the document and hold no text.

* `Document.Reaches`: the nodes to which an evaluation may come.
* `reaches_element`, `reaches_effectiveParent`, `reaches_elementById`: the ways that it goes.
-/

namespace TreePointer

/-- The nodes to which an evaluation may come: those of the document that hold no text. -/
def Document.Reaches (f : Forest) (d : Document) (n : Node) : Prop :=
  f.Within d.root n ∧ f.isText n = false

namespace Forest

variable {f : Forest}

/-- What stands among the spliced children of a node is below it. -/
theorem WellFormed.within_of_mem_spliced (wf : f.WellFormed) {p c : Node} (hp : f.Has p)
    (h : c ∈ f.spliced p) : f.Within p c := by
  induction p using wf.induction_down with
  | step p ih =>
    rw [wf.spliced_eq hp] at h
    obtain ⟨m, hm, hc⟩ := List.mem_flatMap.mp h
    have hw := wf.within_child (.refl f p) hm
    split at hc
    · exact wf.within_trans hw (ih m hm (wf.has_child hm) hc)
    · rwa [List.mem_singleton.mp hc]

end Forest

theorem Document.reaches_of_isElement {f : Forest} {d : Document} {n : Node}
    (hn : f.Within d.root n) (h : f.isElement n = true) : d.Reaches f n :=
  ⟨hn, Forest.not_isText_of_isElement h⟩

namespace Document.Rooted

variable {f : Forest} {d : Document} (hd : d.Rooted f)

include hd

theorem reaches_root : d.Reaches f d.root := by
  refine ⟨.refl f d.root, ?_⟩
  rw [Forest.isText, hd.kind_root]
  rfl

/-- An element among the spliced children. -/
theorem reaches_element {p c : Node} (hp : d.Reaches f p)
    (hc : c ∈ (f.spliced p).filter f.isElement) : d.Reaches f c := by
  obtain ⟨hmem, helement⟩ := List.mem_filter.mp hc
  have wf := hd.wellFormed
  have hw := wf.within_of_mem_spliced (wf.has_of_within hd.has_root hp.1) hmem
  exact reaches_of_isElement (wf.within_trans hp.1 hw) helement

theorem reaches_effectiveParent {n p : Node} (hn : f.Within d.root n)
    (h : f.effectiveParent? n = some p) : d.Reaches f p := by
  have hmem := (Forest.effectiveParent?_spec h).1
  obtain ⟨c, hc, -⟩ := hd.wellFormed.exists_child_within hmem
  exact ⟨hd.within_of_mem_ancestors hn hmem, hd.wellFormed.not_isText_of_mem_children hc⟩

/-- An element that is found by its id. -/
theorem elementById_spec {id : String} {n : Node} (h : d.elementById? f id = some n) :
    f.Within d.root n ∧ f.isElement n = true :=
  have ⟨hmem, helement, _⟩ := Document.elementById?_spec h
  ⟨(hd.wellFormed.mem_preorder_iff hd.has_root).mp hmem, helement⟩

theorem reaches_elementById {id : String} {n : Node} (h : d.elementById? f id = some n) :
    d.Reaches f n :=
  have ⟨hw, helement⟩ := hd.elementById_spec h
  reaches_of_isElement hw helement

end Document.Rooted

end TreePointer
