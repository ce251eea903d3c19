import TreePointer.Document
import TreePointer.Proofs.Decoration.Outline
import TreePointer.Proofs.Tree.Spliced

/-!
# Edits that no address notices

What an address asks of a tree is little: which elements are among the spliced children of a node,
which node is above it, what ids there are, what text a node has and where that starts. Two forests
that give the same answers about the nodes of the first are the same to every address. Decorating a
forest changes none of the answers.

* `Document.tagOf?_congr`, `Document.elementById?_congr`: tags and ids, where nodes stay the same.
* `Transparent`: the answers that stay, from one forest to a decorated one.
* `Replaced.elements_eq`: the elements among spliced children, where some children were replaced.
* `Unnoticed.transparent`: a replaced stretch of children that reads the same changes no answer.
-/

namespace TreePointer

namespace Document

variable {f g : Forest} {d : Document}

theorem tagOf?_congr {n : Node} (h : g.content n = f.content n) : d.tagOf? g n = d.tagOf? f n := by
  rw [tagOf?, tagOf?, Forest.tagName?, Forest.tagName?, Forest.isElement_congr h,
    Forest.name_eq_content, h, ← Forest.name_eq_content]

/-- An element is found by its id as before, if it has stayed in order and no new one has an id. -/
theorem elementById?_congr
    (horder : (g.preorder d.root).filter (fun n => f.Has n) = f.preorder d.root)
    (helement : ∀ n, f.Has n → g.isElement n = f.isElement n)
    (hcontent : ∀ n, f.isElement n = true → g.content n = f.content n)
    (hnew : ∀ n, ¬ f.Has n → g.isElement n = true → g.attribute? n none "id" = none)
    (id : String) : d.elementById? g id = d.elementById? f id := by
  unfold elementById?
  rw [Forest.findBelow?_eq, Forest.findBelow?_eq, ← horder, List.find?_filter]
  congr 2
  funext n
  by_cases hn : f.Has n
  · rw [helement n hn]
    cases h : f.isElement n with
    | false => simp
    | true =>
      rw [Forest.attribute?_congr (hcontent n h), Bool.eq_iff_iff]
      simp [hn]
  · cases h : g.isElement n with
    | false => simp [hn]
    | true => simp [hn, hnew n hn h]

end Document

end TreePointer

namespace TreePointer.Forest

variable {f g k : Forest} {r p : Node} {left old new right cut : List Node}

/-- Where the text of a node starts in the text below `r`, and what it is. -/
def extent (f : Forest) (r n : Node) : Nat × List Char :=
  (f.textOffset r ⟨n, 0⟩, f.visibleChars n)

/-- The second forest tells the same about the nodes of the first as that does. The second may have
more nodes, and its texts may be shorter. -/
structure Transparent (f g : Forest) (r : Node) : Prop where
  has : ∀ n, f.Has n → g.Has n
  kind_eq : ∀ n, f.Has n → g.kind n = f.kind n
  content_eq : ∀ n, f.Has n → f.isText n = false → g.content n = f.content n
  order_eq : (g.preorder r).filter (fun n => f.Has n) = f.preorder r
  start_eq : ∀ n, f.Within r n → g.textOffset r ⟨n, 0⟩ = f.textOffset r ⟨n, 0⟩
  chars_eq : ∀ n, f.Has n → f.isText n = false → g.visibleChars n = f.visibleChars n
  parent_eq : ∀ n, f.Has n → g.effectiveParent? n = f.effectiveParent? n
  elements_eq : ∀ n, f.Has n →
    (g.spliced n).filter g.isElement = (f.spliced n).filter f.isElement
  id_new : ∀ n, ¬ f.Has n → g.isElement n = true → g.attribute? n none "id" = none
  first_eq : (g.firstElement? r).map (g.extent r) = (f.firstElement? r).map (f.extent r)

namespace Transparent

theorem isText_eq (h : Transparent f g r) {n : Node} (hn : f.Has n) : g.isText n = f.isText n := by
  rw [isText, h.kind_eq n hn, isText]

theorem isElement_eq (h : Transparent f g r) {n : Node} (hn : f.Has n) :
    g.isElement n = f.isElement n := by
  rw [isElement, h.kind_eq n hn, isElement]

theorem within (h : Transparent f g r) (wf : f.WellFormed) (wf' : g.WellFormed) (hr : f.Has r)
    {n : Node} (hn : f.Within r n) : g.Within r n := by
  have hmem : n ∈ f.preorder r := (wf.mem_preorder_iff hr).mpr hn
  rw [← h.order_eq] at hmem
  exact (wf'.mem_preorder_iff (h.has r hr)).mp (List.mem_filter.mp hmem).1

theorem refl (wf : f.WellFormed) (hr : f.Has r) : Transparent f f r := by
  have hall : ∀ n ∈ f.preorder r, decide (f.Has n) = true := by
    intro n hn
    exact decide_eq_true (wf.has_of_within hr ((wf.mem_preorder_iff hr).mp hn))
  have hid : ∀ n, ¬ f.Has n → f.isElement n = true → f.attribute? n none "id" = none := by
    intro n hn helement
    exact absurd (has_of_isElement helement) hn
  exact ⟨fun _ => id, fun _ _ => rfl, fun _ _ _ => rfl, List.filter_eq_self.mpr hall,
    fun _ _ => rfl, fun _ _ _ => rfl, fun _ _ => rfl, fun _ _ => rfl, hid, rfl⟩

/-- Forests that tell the same as a third one. -/
theorem trans (h : Transparent f g r) (h' : Transparent g k r) (wf : f.WellFormed)
    (wf' : g.WellFormed) (hr : f.Has r) : Transparent f k r := by
  have htext : ∀ {n}, f.Has n → f.isText n = false → g.isText n = false := fun hn ht =>
    (h.isText_eq hn).trans ht
  have horder : (k.preorder r).filter (fun n => f.Has n)
      = ((k.preorder r).filter fun n => g.Has n).filter fun n => f.Has n := by
    rw [List.filter_filter]
    refine List.filter_congr fun n _ => ?_
    by_cases hn : f.Has n
    · simp [hn, h.has n hn]
    · simp [hn]
  have hid : ∀ n, ¬ f.Has n → k.isElement n = true → k.attribute? n none "id" = none := by
    intro n hn helement
    by_cases hg : g.Has n
    · rw [h'.isElement_eq hg] at helement
      have hk : g.isText n = false := not_isText_of_isElement helement
      rw [attribute?_congr (h'.content_eq n hg hk)]
      exact h.id_new n hn helement
    · exact h'.id_new n hg helement
  exact ⟨fun n hn => h'.has n (h.has n hn),
    fun n hn => (h'.kind_eq n (h.has n hn)).trans (h.kind_eq n hn),
    fun n hn ht => (h'.content_eq n (h.has n hn) (htext hn ht)).trans (h.content_eq n hn ht),
    by rw [horder, h'.order_eq, h.order_eq],
    fun n hn => (h'.start_eq n (h.within wf wf' hr hn)).trans (h.start_eq n hn),
    fun n hn ht => (h'.chars_eq n (h.has n hn) (htext hn ht)).trans (h.chars_eq n hn ht),
    fun n hn => (h'.parent_eq n (h.has n hn)).trans (h.parent_eq n hn),
    fun n hn => (h'.elements_eq n (h.has n hn)).trans (h.elements_eq n hn), hid,
    h'.first_eq.trans h.first_eq⟩

end Transparent

/-! ## Replacing children unnoticed -/

/-- The elements that stand for a node among the spliced children of its parent. -/
def elementsAt (f : Forest) (n : Node) : List Node :=
  if f.isIgnored n then (f.spliced n).filter f.isElement else [n].filter f.isElement

theorem filter_spliced (wf : f.WellFormed) {n : Node} (hn : f.Has n) :
    (f.spliced n).filter f.isElement = (f.children n).flatMap f.elementsAt := by
  rw [wf.spliced_eq hn, List.filter_flatMap]
  refine flatMap_congr_mem fun c _ => ?_
  unfold elementsAt
  split <;> rfl

/-- The elements among the spliced children stay, if the same ones stand in the replaced stretch. -/
theorem Replaced.elements_eq (h : Replaced f g p left old new right) (wf : f.WellFormed)
    (hcut : ∀ n ∈ cut, n ∈ old) (hcontent : ∀ n, f.Has n → n ∉ cut → g.content n = f.content n)
    (hnew : (∀ n ∈ old, n ∉ cut → g.elementsAt n = f.elementsAt n) →
      new.flatMap g.elementsAt = old.flatMap f.elementsAt) {n : Node} (hn : f.Has n) :
    (g.spliced n).filter g.isElement = (f.spliced n).filter f.isElement := by
  have wf' := h.wellFormed
  rw [filter_spliced wf hn, filter_spliced wf' (h.has n hn)]
  refine (h.flatMap_eq wf hcut (F := f.elementsAt) (G := g.elementsAt)
    (fun n below => if f.isIgnored n then below else [n].filter f.isElement)
    (fun m hm _ => ?_) (fun m hm hmcut => ?_) hnew n hn).1
  · rw [elementsAt, filter_spliced wf hm]
  · rw [elementsAt, filter_spliced wf' (h.has m hm), isIgnored_congr (hcontent m hm hmcut)]
    simp only [List.filter_cons, List.filter_nil, isElement_congr (hcontent m hm hmcut)]

/-- The children `new` read as the replaced ones did. Of those the texts `cut` have changed. -/
structure Unnoticed (f g : Forest) (p : Node) (left old new right cut : List Node) : Prop where
  replaced : Replaced f g p left old new right
  cut_old : ∀ n ∈ cut, n ∈ old
  text_cut : ∀ n ∈ cut, f.isText n = true ∧ g.isText n = true
  element_uncut : ∀ n ∈ old, n ∉ cut → f.isElement n = true
  content_eq : ∀ n, f.Has n → n ∉ cut → g.content n = f.content n
  above_old : ∀ n ∈ old, g.effectiveParent? n = if g.isIgnored p then g.effectiveParent? p else some p
  outline_new : (∀ n ∈ old, n ∉ cut → outline f g n = outline f f n) →
    new.flatMap (outline f g) = old.flatMap (outline f f)
  elements_new : (∀ n ∈ old, n ∉ cut → g.elementsAt n = f.elementsAt n) →
    new.flatMap g.elementsAt = old.flatMap f.elementsAt
  id_new : ∀ n, ¬ f.Has n → g.isElement n = true → g.attribute? n none "id" = none
  /-- Under a node that is no element, one element at most takes the place of another one. -/
  alone : f.isElement p = true ∨ ∃ n x, old = [n] ∧ new = [x] ∧ f.isElement n = true ∧
    g.isElement x = true ∧ g.children x = [n]

namespace Unnoticed

variable (h : Unnoticed f g p left old new right cut) (wf : f.WellFormed)

include h

theorem not_cut {n : Node} (ht : f.isText n = false) : n ∉ cut := by
  intro hn
  rw [(h.text_cut n hn).1] at ht
  cases ht

theorem kind_eq {n : Node} (hn : f.Has n) : g.kind n = f.kind n := by
  by_cases hcut : n ∈ cut
  · obtain ⟨ht, ht'⟩ := h.text_cut n hcut
    rw [kind_of_isText ht, kind_of_isText ht']
  · exact kind_congr (h.content_eq n hn hcut)

theorem isElement_eq {n : Node} (hn : f.Has n) : g.isElement n = f.isElement n := by
  rw [isElement, h.kind_eq hn, isElement]

include wf

/-- A node with children is no cut text. -/
theorem not_cut_of_mem {q c : Node} (hc : c ∈ f.children q) : q ∉ cut :=
  h.not_cut (wf.not_isText_of_mem_children hc)

theorem isShown_eq {n : Node} (hn : f.Has n) (hcut : n ∉ cut) : g.isShown n = f.isShown n := by
  have ht : g.isText n = f.isText n := by
    rw [isText, h.kind_eq hn, isText]
  by_cases hold : n ∈ old
  · have htext := not_isText_of_isElement (h.element_uncut n hold hcut)
    rw [not_isShown_of_not_isText htext, not_isShown_of_not_isText (ht.trans htext)]
  · rw [isShown, isShown, ht, h.replaced.parent_eq n hn hold]
    cases hq : f.parent n with
    | none => rfl
    | some q =>
      have hmem := wf.mem_of_parent hq
      rw [Option.any_some, Option.any_some,
        isMarked_congr (h.content_eq q (wf.has_of_mem_children hmem) (h.not_cut_of_mem wf hmem))]

/-- The outline stays, except for the cut texts. -/
theorem outline_eq {n : Node} (hn : f.Has n) (hcut : n ∉ cut) :
    outline f g n = outline f f n := by
  have wf' := h.replaced.wellFormed
  refine (h.replaced.flatMap_eq wf h.cut_old (fun n below => outlineOf f f n ++ below)
    (fun m hm _ => Forest.outline_eq wf f hm) (fun m hm hmcut => ?_) h.outline_new n hn).2 hcut
  rw [Forest.outline_eq wf' f (h.replaced.has m hm), outlineOf, outlineOf, h.isShown_eq wf hm hmcut,
    characters_congr (h.content_eq m hm hmcut)]

/-- The elements among the spliced children stay. -/
theorem elements_eq {n : Node} (hn : f.Has n) :
    (g.spliced n).filter g.isElement = (f.spliced n).filter f.isElement :=
  h.replaced.elements_eq wf h.cut_old h.content_eq h.elements_new hn

/-- The node above stays. -/
theorem effectiveParent?_eq (n : Node) (hn : f.Has n) :
    g.effectiveParent? n = f.effectiveParent? n := by
  have wf' := h.replaced.wellFormed
  induction n using wf.up_ends.induction with
  | _ n ih =>
    cases hq : f.parent n with
    | none =>
      have hold : n ∉ old := by
        intro hold
        rw [wf.parent_of_mem (h.replaced.mem_old hold)] at hq
        cases hq
      have hq' : g.parent n = none := (h.replaced.parent_eq n hn hold).trans hq
      rw [effectiveParent?_of_top hq, effectiveParent?_of_top hq']
    | some q =>
      have hmem := wf.mem_of_parent hq
      have hqhas := wf.has_of_mem_children hmem
      have hignored : g.isIgnored q = f.isIgnored q :=
        isIgnored_congr (h.content_eq q hqhas (h.not_cut_of_mem wf hmem))
      rw [wf.effectiveParent?_of_parent hq, ← ih q hq hqhas, ← hignored]
      by_cases hold : n ∈ old
      · have hp := wf.parent_of_mem (h.replaced.mem_old hold)
        rw [hq, Option.some.injEq] at hp
        rw [hp]
        exact h.above_old n hold
      · exact wf'.effectiveParent?_of_parent ((h.replaced.parent_eq n hn hold).trans hq)

end Unnoticed

/-- An element around a single child covers what that covers. -/
theorem extent_of_single (wf : f.WellFormed) (hr : f.Has r) {n x : Node}
    (hw : f.Within r x) (hc : f.children x = [n]) : f.extent r x = f.extent r n := by
  have hmem : n ∈ f.children x := by
    rw [hc]
    exact List.mem_singleton_self n
  have hxhas := wf.has_of_within hr hw
  have hsplit : f.children x = [] ++ n :: [] := hc
  have hslot : f.slot n = 0 := wf.slot_eq hsplit
  have hplaces : f.places x = f.places n := by
    rw [places_eq, wf.preorder_eq hxhas, ← List.singleton_append, placesIn_append,
      wf.placesIn_parent hmem, hc, List.flatMap_singleton, List.nil_append, places_eq]
  rw [extent, extent, ← wf.textOffset_before_child hr hw hmem, hslot, visibleChars, hplaces,
    visibleChars]

namespace Unnoticed

variable (h : Unnoticed f g p left old new right cut) (wf : f.WellFormed) (hr : f.Has r)

include h in
theorem find?_eq {ns : List Node} (hns : ∀ n ∈ ns, f.Has n) :
    ns.find? g.isElement = ns.find? f.isElement := by
  induction ns with
  | nil => rfl
  | cons n ns ih =>
    rw [List.find?_cons, List.find?_cons, h.isElement_eq (hns n List.mem_cons_self),
      ih fun m hm => hns m (List.mem_cons_of_mem n hm)]

include h wf hr

section

variable (ht : f.isText r = false)

include ht

theorem order_eq : (g.preorder r).filter (fun n => f.Has n) = f.preorder r := by
  rw [order_of_outline (h.outline_eq wf hr (h.not_cut ht)), List.filter_eq_self]
  intro n hn
  exact decide_eq_true (wf.has_of_within hr ((wf.mem_preorder_iff hr).mp hn))

theorem within {n : Node} (hn : f.Within r n) : g.Within r n := by
  have hmem := (wf.mem_preorder_iff hr).mpr hn
  rw [← h.order_eq wf hr ht] at hmem
  exact (h.replaced.wellFormed.mem_preorder_iff (h.replaced.has r hr)).mp (List.mem_filter.mp hmem).1

theorem start_eq {n : Node} (hn : f.Within r n) :
    g.textOffset r ⟨n, 0⟩ = f.textOffset r ⟨n, 0⟩ :=
  textOffset_of_outline wf h.replaced.wellFormed hr (h.replaced.has r hr)
    (h.outline_eq wf hr (h.not_cut ht)) (wf.has_of_within hr hn) hn (h.within wf hr ht hn)

theorem extent_eq {n : Node} (hn : f.Within r n) (hnt : f.isText n = false) :
    g.extent r n = f.extent r n := by
  rw [extent, extent, h.start_eq wf hr ht hn,
    chars_of_outline (h.outline_eq wf (wf.has_of_within hr hn) (h.not_cut hnt))]

/-- The first element of a list of children keeps its extent. -/
theorem map_extent_eq {ns : List Node} (hns : ∀ n ∈ ns, n ∈ f.children r) :
    (ns.find? f.isElement).map (g.extent r) = (ns.find? f.isElement).map (f.extent r) := by
  cases hfirst : ns.find? f.isElement with
  | none => rfl
  | some n =>
    have hw := wf.within_child (.refl f r) (hns n (List.mem_of_find?_eq_some hfirst))
    rw [Option.map_some, Option.map_some,
      h.extent_eq wf hr ht hw (not_isText_of_isElement (List.find?_some hfirst))]

end

variable (hk : f.kind r = .document)

include hk

/-- The first element of a document may be another one, which takes the place of the old one. -/
theorem first_eq :
    (g.firstElement? r).map (g.extent r) = (f.firstElement? r).map (f.extent r) := by
  have wf' := h.replaced.wellFormed
  have ht : f.isText r = false := by
    rw [isText, hk]
    rfl
  unfold firstElement?
  by_cases hpr : p = r
  · subst hpr
    have hleft : ∀ m ∈ left, m ∈ f.children p := fun m hm =>
      h.replaced.children_old ▸ List.mem_append_left _ hm
    obtain helement | ⟨n, x, rfl, rfl, hn, hx, hchild⟩ := h.alone
    · rw [isElement, hk] at helement
      cases helement
    · have hmem : n ∈ f.children p := h.replaced.mem_old (List.mem_singleton_self n)
      have hmem' : x ∈ g.children p :=
        h.replaced.children_new ▸ List.mem_append_right left List.mem_cons_self
      have hextent : g.extent p x = f.extent p n := by
        rw [extent_of_single wf' (h.replaced.has p hr) (wf'.within_child (.refl g p) hmem') hchild,
          h.extent_eq wf hr ht (wf.within_child (.refl f p) hmem) (not_isText_of_isElement hn)]
      have hsplit : ∀ (accept : Node → Bool) (ns : List Node),
          (left ++ ns).find? accept = (left.find? accept).or (ns.find? accept) :=
        fun _ _ => List.find?_append
      rw [h.replaced.children_new, h.replaced.children_old, hsplit, hsplit,
        h.find?_eq fun m hm => wf.has_child (hleft m hm)]
      cases hfirst : left.find? f.isElement with
      | some m =>
        have hmap := h.map_extent_eq wf hr ht hleft
        rw [hfirst] at hmap
        rw [Option.some_or, Option.some_or, hmap]
      | none =>
        rw [Option.none_or, Option.none_or, List.singleton_append, List.singleton_append,
          List.find?_cons_of_pos hx, List.find?_cons_of_pos hn, Option.map_some, Option.map_some,
          hextent]
  · rw [h.replaced.children_eq r hr (Ne.symm hpr), h.find?_eq fun _ hm => wf.has_child hm]
    exact h.map_extent_eq wf hr ht fun _ hn => hn

/-- **A replaced stretch that reads the same** changes no answer below a document. -/
theorem transparent : Transparent f g r := by
  have ht : f.isText r = false := by
    rw [isText, hk]
    rfl
  exact ⟨h.replaced.has, fun n => h.kind_eq, fun n hn hnt => h.content_eq n hn (h.not_cut hnt),
    h.order_eq wf hr ht, fun n => h.start_eq wf hr ht,
    fun n hn hnt => chars_of_outline (h.outline_eq wf hn (h.not_cut hnt)),
    h.effectiveParent?_eq wf, fun n => h.elements_eq wf, h.id_new, h.first_eq wf hr hk⟩

end Unnoticed

end TreePointer.Forest
