import Mathlib.Data.List.Flatten
import TreePointer.Document
import TreePointer.Proofs.Tree.Nearest

/-!
# The first element with an id

An element is looked up by its id with a stack of nodes whose subtrees are still to be searched. The
children of a node that is not the right one take its place on the stack, but for those that cannot
have an id. This changes the subtrees on the stack, taken one after the other, by nodes that are not
looked for only, so the search ends with the first hit in them. From the root that is the first in
document order.

* `SearchRun`: the search, without a bound on its steps.
* `WellFormed.searchRun_stack`: what it finds from any stack.
* `contains_iff`: what a document contains.
* `Document.elementById?_eq_some_iff`: the element that is found by an id.
* `Document.elementById?_first`: all of this together.
-/

namespace TreePointer

namespace Forest

variable {f : Forest} {accept : Node → Bool} {n : Node}

/-- Whether a node is an element with this id. -/
def hasId (f : Forest) (id : String) (n : Node) : Bool :=
  f.isElement n && f.attribute? n none "id" == some id

/-! ## The search -/

/-- The children of a node that are searched. -/
def searched (f : Forest) (n : Node) : List Node :=
  (f.children n).filter fun c => (f.kind c).isContainer

/-- A search that has these nodes on its stack, the next one first. -/
inductive SearchRun (f : Forest) (accept : Node → Bool) : List Node → Option Node → Prop
  | exhausted : SearchRun f accept [] none
  | found {n : Node} {stack : List Node} (h : accept n = true) :
    SearchRun f accept (n :: stack) (some n)
  | down {n : Node} {stack : List Node} {found : Option Node} (h : accept n = false)
    (rest : SearchRun f accept (f.searched n ++ stack) found) :
    SearchRun f accept (n :: stack) found

theorem pushed_sublist (f : Forest) (n : Node) (stack : List Node) :
    ((f.searched n ++ stack).flatMap f.preorder).Sublist
      ((f.children n ++ stack).flatMap f.preorder) :=
  (List.filter_sublist.append_right stack).flatMap f.preorder

namespace WellFormed

variable (wf : f.WellFormed)

include wf

/-- Without the nodes that hold no others the subtrees have the same first hit, if only an element
is one. -/
theorem find?_searched (haccept : ∀ n, accept n = true → f.isElement n = true) {cs : List Node}
    (hcs : ∀ c ∈ cs, f.Has c) :
    ((cs.filter fun c => (f.kind c).isContainer).flatMap f.preorder).find? accept
      = (cs.flatMap f.preorder).find? accept := by
  induction cs with
  | nil => rfl
  | cons c cs ih =>
    have hrest := ih fun d hd => hcs d (List.mem_cons_of_mem _ hd)
    rw [List.flatMap_cons, List.find?_append, List.filter_cons]
    cases hc : (f.kind c).isContainer with
    | true =>
      rw [if_pos rfl, List.flatMap_cons, List.find?_append, hrest]
    | false =>
      have hno : accept c = false := Bool.eq_false_iff.mpr fun h =>
        Bool.eq_false_iff.mp hc (isContainer_of_isElement (haccept c h))
      rw [if_neg Bool.false_ne_true, hrest, wf.preorder_of_leaf (hcs c List.mem_cons_self)
        (wf.children_of_not_container hc), List.find?_singleton, if_neg (Bool.eq_false_iff.mp hno),
        Option.none_or]

/-- Pushing the children that are searched instead of all of them changes no first hit. -/
theorem find?_pushed (haccept : ∀ n, accept n = true → f.isElement n = true) (n : Node)
    (stack : List Node) :
    ((f.searched n ++ stack).flatMap f.preorder).find? accept
      = ((f.children n ++ stack).flatMap f.preorder).find? accept := by
  rw [List.flatMap_append, List.flatMap_append, List.find?_append, List.find?_append, searched,
    wf.find?_searched haccept fun c hc => wf.has_child hc]

theorem has_of_mem_searched {c : Node} (h : c ∈ f.searched n) : f.Has c :=
  wf.has_child (List.mem_filter.mp h).1

/-- **From any stack** the search ends, with the first hit in the subtrees of the nodes on it, taken
one after the other. -/
theorem searchRun_stack (haccept : ∀ n, accept n = true → f.isElement n = true)
    {stack : List Node} (hstack : ∀ n ∈ stack, f.Has n) :
    SearchRun f accept stack ((stack.flatMap f.preorder).find? accept) := by
  -- by the number of nodes that are left to search
  generalize hk : (stack.flatMap f.preorder).length = k
  induction k using Nat.strongRecOn generalizing stack with
  | _ k ih =>
    cases stack with
    | nil => exact .exhausted
    | cons n stack =>
      rw [List.flatMap_cons, wf.preorder_eq (hstack n List.mem_cons_self), List.cons_append,
        ← List.flatMap_append] at hk ⊢
      rw [List.find?_cons]
      cases h : accept n with
      | true => exact .found h
      | false =>
        refine .down h ?_
        dsimp only
        rw [← wf.find?_pushed haccept]
        refine ih _ ?_ (fun c hc => ?_) rfl
        · have hle := (f.pushed_sublist n stack).length_le
          rw [List.length_cons] at hk
          omega
        · rcases List.mem_append.mp hc with hc | hc
          · exact wf.has_of_mem_searched hc
          · exact hstack c (List.mem_cons_of_mem _ hc)

end WellFormed

end Forest

/-! ## What a document finds -/

theorem contains_iff {f : Forest} {d : Document} {n : Node} :
    d.contains f n = true ↔ f.Within d.root n := by
  rw [Document.contains, Bool.or_eq_true, beq_iff_eq, Forest.isAncestor, decide_eq_true_iff]
  exact Iff.rfl

namespace Document

variable {f : Forest} {d : Document} {id : String}

theorem elementById?_eq (hid : id ≠ "") :
    d.elementById? f id = (f.preorder d.root).find? (f.hasId id) := by
  rw [elementById?, if_neg hid, Forest.findBelow?_eq]
  rfl

/-- Nothing is found by the empty id. -/
theorem ne_empty_of_elementById? {n : Node} (h : d.elementById? f id = some n) : id ≠ "" := by
  rintro rfl
  rw [elementById?, if_pos rfl] at h
  cases h

/-- What is found by an id is an element with this id. -/
theorem elementById?_spec {n : Node} (h : d.elementById? f id = some n) :
    n ∈ f.preorder d.root ∧ f.isElement n = true ∧ f.attribute? n none "id" = some id := by
  rw [elementById?_eq (ne_empty_of_elementById? h)] at h
  have hfound := List.find?_some h
  rw [Forest.hasId, Bool.and_eq_true, beq_iff_eq] at hfound
  exact ⟨List.mem_of_find?_eq_some h, hfound⟩

/-- The document contains the element, and no element with the same id that is earlier. -/
structure IsFirst (f : Forest) (d : Document) (id : String) (e : Node) : Prop where
  contains : d.contains f e = true
  hasId : f.hasId id e = true
  earlier : ∀ u, d.contains f u = true → f.hasId id u = true → u ≠ e → f.Earlier e u

theorem searchRun_elementById? (wf : f.WellFormed) (hr : f.Has d.root) (hid : id ≠ "") :
    f.SearchRun (f.hasId id) [d.root] (d.elementById? f id) := by
  have haccept : ∀ n, f.hasId id n = true → f.isElement n = true :=
    fun _ h => (Bool.and_eq_true_iff.mp h).1
  have hroot : ∀ n ∈ [d.root], f.Has n := fun _ h => List.mem_singleton.mp h ▸ hr
  have hrun := wf.searchRun_stack haccept hroot
  rwa [List.flatMap_singleton, ← elementById?_eq hid] at hrun

/-- **The first element in document order** is found by its id. -/
theorem elementById?_eq_some_iff (wf : f.WellFormed) (hr : f.Has d.root) (hid : id ≠ "")
    {e : Node} : d.elementById? f id = some e ↔ d.IsFirst f id e := by
  rw [elementById?_eq hid, find?_eq_some_iff_of_pairwise (R := f.Earlier)
    (wf.pairwise_preorder hr) Forest.earlier_asymm]
  simp only [wf.mem_preorder_iff hr, ← contains_iff]
  exact ⟨fun ⟨hhas, hin, hfirst⟩ => ⟨hin, hhas, hfirst⟩, fun h => ⟨h.hasId, h.contains, h.earlier⟩⟩

theorem elementById?_eq_none_iff (wf : f.WellFormed) (hr : f.Has d.root) (hid : id ≠ "") :
    d.elementById? f id = none ↔ ∀ e, d.contains f e = true → f.hasId id e = false := by
  rw [elementById?_eq hid, List.find?_eq_none]
  simp only [wf.mem_preorder_iff hr, ← contains_iff, Bool.not_eq_true]

/-- **By an id that is not empty the first element with it is found.** The search from the root
ends. It ends with an element just if the document contains it, it has the id, and all others that
are contained and have the id come after it in document order. It ends with nothing just if no
contained element has the id. -/
theorem elementById?_first (wf : f.WellFormed) (hr : f.Has d.root) (hid : id ≠ "") :
    f.SearchRun (f.hasId id) [d.root] (d.elementById? f id) ∧
    (∀ e, d.elementById? f id = some e ↔ d.IsFirst f id e) ∧
    (d.elementById? f id = none ↔ ∀ e, d.contains f e = true → f.hasId id e = false) :=
  ⟨searchRun_elementById? wf hr hid, fun _ => elementById?_eq_some_iff wf hr hid,
    elementById?_eq_none_iff wf hr hid⟩

/-- The tree `<r><!--c--><a><b id="x"/></a><c id="x"/></r>`. -/
def sharedId : Forest := ⟨#[
  { Record.bare .element with name := some (.plain "r"), children := [⟨1⟩, ⟨2⟩, ⟨4⟩] },
  { Record.bare .comment with value := some "c", parent := some ⟨0⟩ },
  { Record.bare .element with name := some (.plain "a"), parent := some ⟨0⟩, children := [⟨3⟩] },
  { Record.bare .element with
    name := some (.plain "b"), parent := some ⟨2⟩, attributes := [⟨.plain "id", "x"⟩] },
  { Record.bare .element with
    name := some (.plain "c"), parent := some ⟨0⟩, attributes := [⟨.plain "id", "x"⟩] }]⟩

/-- The deeper of two elements with one id is found, as it comes first. -/
theorem elementById?_first_sharedId :
    sharedId.WellFormed ∧ IsFirst sharedId ⟨⟨0⟩, .xml⟩ "x" ⟨3⟩ ∧
      sharedId.SearchRun (sharedId.hasId "x") [⟨0⟩] (some ⟨3⟩) ∧
      ¬ IsFirst sharedId ⟨⟨0⟩, .xml⟩ "x" ⟨4⟩ := by
  have wf : sharedId.WellFormed := by decide
  have hfound : elementById? sharedId ⟨⟨0⟩, .xml⟩ "x" = some ⟨3⟩ := by decide
  have hid : "x" ≠ "" := by decide
  obtain ⟨hrun, hfirst, -⟩ := elementById?_first (d := ⟨⟨0⟩, .xml⟩) wf (by decide) hid
  rw [hfound] at hrun
  refine ⟨wf, (hfirst ⟨3⟩).mp hfound, hrun, fun h => ?_⟩
  rw [← hfirst ⟨4⟩, hfound] at h
  exact absurd h (by decide)

end Document

end TreePointer
