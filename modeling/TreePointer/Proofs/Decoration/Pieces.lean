import TreePointer.Proofs.Address.TextPreserved
import TreePointer.Proofs.Decoration.Run

/-!
# Where the parts of a text are

Cutting a text leaves its first part where it was and puts the second one behind it, in the same
element. So along a run of the decoration every text that is shown is a part of a text of the first
forest, at the place its start has there, and the parts of an earlier text come before those of a
later one.

* `PartOf`: a text is the part of another one that starts at a character.
* `Pieced`: the invariant of the parts. `Decorated.pieced`: it holds along every run.
-/

namespace TreePointer

namespace Forest

variable {f g : Forest} {r : Node}

theorem Transparent.within_of_within (h : Transparent f g r) (wf : f.WellFormed)
    (wf' : g.WellFormed) (hr : f.Has r) {n : Node} (hn : f.Has n) (hw : g.Within r n) :
    f.Within r n := by
  refine (wf.mem_preorder_iff hr).mp ?_
  rw [← h.order_eq]
  exact List.mem_filter.mpr ⟨(wf'.mem_preorder_iff (h.has r hr)).mpr hw, decide_eq_true hn⟩

/-- The order of the nodes that were there stays. -/
theorem Transparent.compareOrder_eq (h : Transparent f g r) (wf : f.WellFormed)
    (wf' : g.WellFormed) (hr : f.Has r) {n m : Node} (hn : f.Within r n) (hm : f.Within r m)
    (hlt : f.compareOrder n m = .ok .lt) : g.compareOrder n m = .ok .lt := by
  obtain ⟨before, after, e⟩ := List.append_of_mem ((wf.mem_preorder_iff hr).mpr hn)
  have hmem := wf.mem_after_of_compareOrder hr e hm hlt
  have hpair := (wf'.pairwise_preorder (h.has r hr)).filter fun n => f.Has n
  rw [h.order_eq, e, List.pairwise_append, List.pairwise_cons] at hpair
  exact hpair.2.1.1 m hmem

namespace Marked

variable {p t x u : Node} {k : Nat} {tag : String} {left right : List Node} (wf : g.WellFormed)
  (hr : g.Has r) (hp : g.Within r p) (hrep : Replaced f g p left [t] [t, x, u] right)
  (hm : Marked f g p t x u k tag)

include wf hr hp hrep hm

/-- The parts of a cut text follow each other, with nothing but the marked element between them:
this is what stands around the first part, and around the second. -/
theorem preorder_eq : ∃ before after, g.preorder r = before ++ t :: x :: u :: after ∧
    g.preorder r = (before ++ [t, x]) ++ u :: after := by
  have hu := hm.isText_tail
  have hx := isElement_of_marked hm.content_marker
  have htpre : g.preorder t = [t] :=
    wf.preorder_of_leaf (has_of_isText hm.isText_text) (children_of_isText wf hm.isText_text)
  have hxpre : g.preorder x = [x] := wf.preorder_of_leaf (has_of_isElement hx) hm.children_marker
  have hupre : g.preorder u = [u] :=
    wf.preorder_of_leaf (has_of_isText hu) (children_of_isText wf hu)
  obtain ⟨before, after, e⟩ := wf.preorder_infix hr hp
  have hsplit : g.children p = left ++ t :: (x :: u :: right) := hrep.children_new
  rw [wf.preorder_of_children hsplit, htpre, List.flatMap_cons, List.flatMap_cons, hxpre,
    hupre] at e
  refine ⟨before ++ p :: left.flatMap g.preorder, right.flatMap g.preorder ++ after, ?_, ?_⟩ <;>
  · rw [e]
    simp only [List.append_assoc, List.cons_append, List.nil_append]

/-- The second part starts where the first one ends. -/
theorem textOffset_tail (ht : g.isShown t = true) (hk : k ≤ (f.characters t).length) :
    g.textOffset r ⟨u, 0⟩ = g.textOffset r ⟨t, 0⟩ + k := by
  obtain ⟨before, after, e, e'⟩ := hm.preorder_eq wf hr hp hrep
  have hu := hm.isText_tail
  have hushown : g.isShown u = true := by
    rw [isShown_of_parent hm.parent_text, hm.isText_text] at ht
    rw [isShown_of_parent hm.parent_tail, hu]
    exact ht
  have hxshown : g.isShown x = false :=
    not_isShown_of_isElement (isElement_of_marked hm.content_marker)
  have hlen : (g.placesIn [t, x]).length = k := by
    have hsplit : [t, x] = [t] ++ [x] := rfl
    rw [hsplit, placesIn_append, placesIn_singleton, placesIn_singleton, if_pos ht, hxshown,
      if_neg (by decide), List.append_nil, length_placesOf, hm.characters_text, List.length_take]
    omega
  rw [wf.textOffset_of_preorder hr e' hushown (Nat.zero_le _),
    wf.textOffset_of_preorder hr e ht (Nat.zero_le _), placesIn_append, List.length_append, hlen,
    Nat.add_zero, Nat.add_zero]

/-- What comes after the first part comes after the second. -/
theorem compareOrder_tail {m : Node} (hmhas : f.Has m) (hmr : g.Within r m)
    (hlt : g.compareOrder t m = .ok .lt) : g.compareOrder u m = .ok .lt := by
  obtain ⟨before, after, e, e'⟩ := hm.preorder_eq wf hr hp hrep
  have hmem := wf.mem_after_of_compareOrder hr e hmr hlt
  rw [List.mem_cons, List.mem_cons] at hmem
  rcases hmem with rfl | rfl | hmem
  · exact absurd hmhas hm.not_has_marker
  · exact absurd hmhas hm.not_has_tail
  · exact wf.compareOrder_of_after hr e' hmem

/-- What comes before the first part comes before the second. -/
theorem compareOrder_before_tail {m : Node} (hmr : g.Within r m)
    (hlt : g.compareOrder m t = .ok .lt) : g.compareOrder m u = .ok .lt := by
  obtain ⟨before, after, e, e'⟩ := hm.preorder_eq wf hr hp hrep
  have hmem := wf.mem_before_of_compareOrder hr e hmr hlt
  exact wf.compareOrder_of_before hr e' (List.mem_append_left _ hmem)

end Marked

end Forest

namespace Decoration

open Forest

/-- The text `t` of the second forest is a part of the text `whole` of the first one, from its
`i`-th character on. -/
structure PartOf (f g : Forest) (r t whole : Node) (i : Nat) : Prop where
  isText : g.isText t = true
  isText_whole : f.isText whole = true
  parent_eq : g.parent t = f.parent whole
  start_eq : g.textOffset r ⟨t, 0⟩ = f.textOffset r ⟨whole, 0⟩ + i
  length_le : i + (g.characters t).length ≤ (f.characters whole).length

/-- Parts are where they have to be, every shown text is one, and they are in order. -/
structure Pieced (f : Forest) (r : Node) (s : State) : Prop where
  part : ∀ t whole i, s.piece t = some (whole, i) → f.Within r whole →
    PartOf f s.forest r t whole i
  covered : ∀ t, s.forest.Within r t → s.forest.isShown t = true →
    ∃ whole i, s.piece t = some (whole, i) ∧ f.Within r whole
  ordered : ∀ t whole i t' whole' i', s.piece t = some (whole, i) → f.Within r whole →
    s.piece t' = some (whole', i') → f.Within r whole' →
    f.compareOrder whole whole' = .ok .lt → s.forest.compareOrder t t' = .ok .lt

variable {f : Forest} {d : Document} {s s' : State}

namespace PartOf

variable {g g' : Forest} {r t whole : Node} {i : Nat}

/-- A part stays one if it only loses characters. -/
theorem step (h : PartOf f g r t whole i) (hg : Transparent g g' r) (ht : g.Within r t)
    (hparent : g'.parent t = g.parent t)
    (hlen : (g'.characters t).length ≤ (g.characters t).length) : PartOf f g' r t whole i := by
  have hle := h.length_le
  refine ⟨(hg.isText_eq (has_of_isText h.isText)).trans h.isText, h.isText_whole,
    hparent.trans h.parent_eq, (hg.start_eq t ht).trans h.start_eq, ?_⟩
  omega

variable (hd : d.Rooted f) (hg : Transparent f g d.root) (h : PartOf f g d.root t whole i)
  (hw : f.Within d.root whole)

include hd hg h hw

/-- The parts of a text are children of one node, which was there before. -/
theorem exists_parent : ∃ p, f.parent whole = some p ∧ g.parent t = some p ∧
    f.Within d.root p ∧ g.content p = f.content p := by
  obtain ⟨p, hp, hpr⟩ := hd.exists_parent_of_isText hw h.isText_whole
  have hmem := hd.wellFormed.mem_of_parent hp
  exact ⟨p, hp, h.parent_eq.trans hp, hpr, hg.content_eq p (hd.wellFormed.has_of_mem_children hmem)
    (hd.wellFormed.not_isText_of_mem_children hmem)⟩

theorem within (hd' : d.Rooted g) : g.Within d.root t := by
  obtain ⟨p, -, hp, hpr, -⟩ := h.exists_parent hd hg hw
  have hpr' := hg.within hd.wellFormed hd'.wellFormed hd.has_root hpr
  exact hd'.wellFormed.within_child hpr' (hd'.wellFormed.mem_of_parent hp)

/-- The parts of a text without marks above it are shown. -/
theorem isShown (hu : d.IsUnmarked f) : g.isShown t = true := by
  obtain ⟨p, -, hp, hpr, hcontent⟩ := h.exists_parent hd hg hw
  rw [isShown_of_parent hp, h.isText, isMarked_congr hcontent, hu p hpr]
  rfl

end PartOf

/-! ## Runs -/

theorem Pieced.start (f : Forest) (r : Node) : Pieced f r (State.start f) := by
  have hpiece : ∀ {t whole : Node} {i : Nat}, (State.start f).piece t = some (whole, i) →
      f.isText t = true ∧ whole = t ∧ i = 0 := by
    intro t whole i h
    simp only [State.start] at h
    split at h
    · next ht =>
      rw [Option.some.injEq, Prod.mk.injEq] at h
      exact ⟨ht, h.1.symm, h.2.symm⟩
    · cases h
  refine ⟨fun t whole i h _ => ?_, fun t hr ht => ?_, fun t whole i t' whole' i' h _ h' _ hlt => ?_⟩
  · obtain ⟨ht, rfl, rfl⟩ := hpiece h
    exact ⟨ht, ht, rfl, rfl, Nat.le_of_eq (Nat.zero_add _)⟩
  · exact ⟨t, 0, if_pos (isText_of_isShown ht), hr⟩
  · obtain ⟨-, rfl, -⟩ := hpiece h
    obtain ⟨-, rfl, -⟩ := hpiece h'
    exact hlt

/-- The parts after a cut are those before it and the second part of the text. -/
theorem piece_cut {t t₀ whole : Node} {k i : Nat} (h : s.cut t₀ k t = some (whole, i)) :
    (t ≠ s.forest.fresh ∧ s.piece t = some (whole, i)) ∨
      (t = s.forest.fresh ∧ ∃ j, s.piece t₀ = some (whole, j) ∧ i = j + k) := by
  unfold State.cut at h
  split at h
  · next ht =>
    rw [Option.map_eq_some_iff] at h
    obtain ⟨⟨whole', j⟩, hpiece, e⟩ := h
    rw [Prod.mk.injEq] at e
    obtain ⟨rfl, rfl⟩ := e
    exact Or.inr ⟨ht, j, hpiece, rfl⟩
  · next ht => exact Or.inl ⟨ht, h⟩

section Step

variable (hd : d.Rooted f) (hu : d.IsUnmarked f) (hf : Faithful f d s) (h : Pieced f d.root s)

include hd hf h

theorem Pieced.within {t whole : Node} {i : Nat} (ht : s.piece t = some (whole, i))
    (hw : f.Within d.root whole) : s.forest.Within d.root t :=
  (h.part t whole i ht hw).within hd hf.transparent hw hf.rooted

theorem Pieced.step_shelled (hf' : Faithful f d s') {p : Node} {left old new right : List Node}
    (hquiet : Unnoticed s.forest s'.forest p left old new right [])
    (hhidden : ∀ n, ¬ s.forest.Has n → s'.forest.isShown n = false)
    (hpiece : s'.piece = s.piece) : Pieced f d.root s' := by
  have wf := hf.rooted.wellFormed
  have hg := hquiet.transparent wf hf.rooted.has_root hf.rooted.kind_root
  refine ⟨fun t whole i ht hw => ?_, fun t hr ht => ?_,
    fun t whole i t' whole' i' ht hw ht' hw' hlt => ?_⟩
  · rw [hpiece] at ht
    have hpart := h.part t whole i ht hw
    have hhas := has_of_isText hpart.isText
    -- what was replaced is an element
    have hold : t ∉ old := by
      intro hold
      have helement := hquiet.element_uncut t hold List.not_mem_nil
      rw [not_isElement_of_isText hpart.isText] at helement
      cases helement
    refine hpart.step hg (h.within hd hf ht hw) (hquiet.replaced.parent_eq t hhas hold) ?_
    exact Nat.le_of_eq
      (congrArg List.length (characters_congr (hquiet.content_eq t hhas List.not_mem_nil)))
  · by_cases hhas : s.forest.Has t
    · rw [hquiet.isShown_eq wf hhas List.not_mem_nil] at ht
      obtain ⟨whole, i, hcovered, hw⟩ := h.covered t
        (hg.within_of_within wf hf'.rooted.wellFormed hf.rooted.has_root hhas hr) ht
      exact ⟨whole, i, by rw [hpiece]; exact hcovered, hw⟩
    · rw [hhidden t hhas] at ht
      cases ht
  · rw [hpiece] at ht ht'
    exact hg.compareOrder_eq wf hf'.rooted.wellFormed hf.rooted.has_root (h.within hd hf ht hw)
      (h.within hd hf ht' hw') (h.ordered t whole i t' whole' i' ht hw ht' hw' hlt)

section Cut

variable (hf' : Faithful f d s') {t₀ p x : Node} {k : Nat} {tag : String} {left right : List Node}
  (htext : s.forest.isText t₀ = true) (helement : s.forest.isElement p = true)
  (hr : Replaced s.forest s'.forest p left [t₀] [t₀, x, s.forest.fresh] right)
  (hm : Marked s.forest s'.forest p t₀ x s.forest.fresh k tag)

include htext helement hr hm

omit h hd in
theorem transparent_cut : Transparent s.forest s'.forest d.root :=
  (hm.quiet hf.rooted.wellFormed htext hr helement).transparent hf.rooted.wellFormed
    hf.rooted.has_root hf.rooted.kind_root

/-- A text that was a part before the cut still is. -/
theorem part_old {t whole : Node} {i : Nat} (ht : s.piece t = some (whole, i))
    (hw : f.Within d.root whole) : PartOf f s'.forest d.root t whole i := by
  have wf := hf.rooted.wellFormed
  have hpart := h.part t whole i ht hw
  have hhas := has_of_isText hpart.isText
  refine hpart.step (transparent_cut hf htext helement hr hm) (h.within hd hf ht hw) ?_ ?_
  · by_cases e : t = t₀
    · rw [e, hm.parent_text, wf.parent_of_mem (hr.mem_old (List.mem_singleton_self t₀))]
    · exact hr.parent_eq t hhas fun hmem => e (List.mem_singleton.mp hmem)
  · by_cases e : t = t₀
    · rw [e, hm.characters_text, List.length_take]
      exact Nat.min_le_right _ _
    · have hcontent := hr.content_eq t hhas fun hmem => e (List.mem_singleton.mp hmem)
      exact Nat.le_of_eq (congrArg List.length (characters_congr hcontent))

include hf'

omit h hd hf htext helement hr hm in
/-- The element of a text of the document is in the document. -/
theorem within_above {t : Node} (ht : s'.forest.Within d.root t)
    (hparent : s'.forest.parent t = some p) : s'.forest.Within d.root p := by
  refine hf'.rooted.wellFormed.within_parent ht ?_ hparent
  rintro rfl
  rw [hf'.rooted.parent_root] at hparent
  cases hparent

theorem within_element {whole : Node} {j : Nat} (ht : s.piece t₀ = some (whole, j))
    (hw : f.Within d.root whole) : s'.forest.Within d.root p :=
  within_above hf' ((part_old hd hf h htext helement hr hm ht hw).within hd hf'.transparent hw
    hf'.rooted) hm.parent_text

include hu in
/-- The second part of a text starts where the first one ends. -/
theorem part_tail (hk : k ≤ (s.forest.characters t₀).length) {whole : Node} {j : Nat}
    (ht : s.piece t₀ = some (whole, j)) (hw : f.Within d.root whole) :
    PartOf f s'.forest d.root s.forest.fresh whole (j + k) := by
  have hpart := part_old hd hf h htext helement hr hm ht hw
  have hpr := within_element hd hf h hf' htext helement hr hm ht hw
  have hshown := hpart.isShown hd hf'.transparent hw hu
  have hlen := (h.part _ _ _ ht hw).length_le
  refine ⟨hm.isText_tail, hpart.isText_whole, ?_, ?_, ?_⟩
  · rw [hm.parent_tail, ← hm.parent_text, hpart.parent_eq]
  · rw [hm.textOffset_tail hf'.rooted.wellFormed hf'.rooted.has_root hpr hr hshown hk,
      hpart.start_eq, Nat.add_assoc]
  · rw [hm.characters_tail, List.length_drop]
    omega

omit hd in
/-- A text that was there and is shown was a part. -/
theorem covered_old {t : Node} (hhas : s.forest.Has t) (htr : s'.forest.Within d.root t)
    (ht : s'.forest.isShown t = true) :
    ∃ whole i, s.piece t = some (whole, i) ∧ f.Within d.root whole := by
  have wf := hf.rooted.wellFormed
  have hg := transparent_cut hf htext helement hr hm
  refine h.covered t
    (hg.within_of_within wf hf'.rooted.wellFormed hf.rooted.has_root hhas htr) ?_
  by_cases e : t ∈ [t₀]
  · have hmarked : s'.forest.isMarked p = s.forest.isMarked p := isMarked_congr
      (hg.content_eq p (has_of_isElement helement) (not_isText_of_isElement helement))
    obtain rfl := List.mem_singleton.mp e
    rw [isShown_of_parent hm.parent_text, hm.isText_text, hmarked] at ht
    rw [isShown_of_parent (wf.parent_of_mem (hr.mem_old e)), htext]
    exact ht
  · rw [← (hm.quiet wf htext hr helement).isShown_eq wf hhas e]
    exact ht

omit hd in
theorem covered_cut {t : Node} (htr : s'.forest.Within d.root t)
    (ht : s'.forest.isShown t = true) :
    ∃ whole i, s.cut t₀ k t = some (whole, i) ∧ f.Within d.root whole := by
  have wf' := hf'.rooted.wellFormed
  have hold := fun {m} => covered_old hf h hf' htext helement hr hm (t := m)
  obtain hhas | rfl | rfl := (hm.has_iff t).mp (has_of_isText (isText_of_isShown ht))
  · obtain ⟨whole, i, hi, hw⟩ := hold hhas htr ht
    have hne : t ≠ s.forest.fresh := by
      rintro rfl
      exact hm.not_has_tail hhas
    exact ⟨whole, i, by rw [State.cut, if_neg hne, hi], hw⟩
  · rw [not_isShown_of_isElement (isElement_of_marked hm.content_marker)] at ht
    cases ht
  · -- the second part is shown as the first one is
    have hshown : s'.forest.isShown t₀ = true := by
      rw [isShown_of_parent hm.parent_tail, hm.isText_tail] at ht
      rw [isShown_of_parent hm.parent_text, hm.isText_text]
      exact ht
    have hpr := within_above hf' htr hm.parent_tail
    obtain ⟨whole, i, hi, hw⟩ := hold (has_of_isText htext)
      (wf'.within_child hpr (wf'.mem_of_parent hm.parent_text)) hshown
    exact ⟨whole, i + k, by rw [State.cut, if_pos rfl, hi]; rfl, hw⟩

theorem ordered_cut {t whole t' whole' : Node} {i i' : Nat}
    (ht : s.cut t₀ k t = some (whole, i)) (hw : f.Within d.root whole)
    (ht' : s.cut t₀ k t' = some (whole', i')) (hw' : f.Within d.root whole')
    (hlt : f.compareOrder whole whole' = .ok .lt) : s'.forest.compareOrder t t' = .ok .lt := by
  have wf' := hf'.rooted.wellFormed
  have hroot' := hf'.rooted.has_root
  have hg := transparent_cut hf htext helement hr hm
  have hold : ∀ {m m' : Node} {j j' : Nat}, s.piece m = some (whole, j) →
      s.piece m' = some (whole', j') → s'.forest.compareOrder m m' = .ok .lt := fun hj hj' =>
    hg.compareOrder_eq hf.rooted.wellFormed wf' hf.rooted.has_root (h.within hd hf hj hw)
      (h.within hd hf hj' hw') (h.ordered _ _ _ _ _ _ hj hw hj' hw' hlt)
  have hwithin : ∀ {m w : Node} {j : Nat}, s.piece m = some (w, j) → f.Within d.root w →
      s'.forest.Within d.root m := fun hj hjw =>
    (part_old hd hf h htext helement hr hm hj hjw).within hd hf'.transparent hjw hf'.rooted
  have helementr : ∀ {w : Node} {j : Nat}, s.piece t₀ = some (w, j) → f.Within d.root w →
      s'.forest.Within d.root p := fun hj hjw =>
    within_element hd hf h hf' htext helement hr hm hj hjw
  obtain ⟨-, hj⟩ | ⟨e, j, hj, -⟩ := piece_cut ht
  · obtain ⟨-, hj'⟩ | ⟨e', j', hj', -⟩ := piece_cut ht'
    · exact hold hj hj'
    · rw [e']
      exact hm.compareOrder_before_tail wf' hroot' (helementr hj' hw') hr (hwithin hj hw)
        (hold hj hj')
  · obtain ⟨-, hj'⟩ | ⟨-, j', hj', -⟩ := piece_cut ht'
    · rw [e]
      exact hm.compareOrder_tail wf' hroot' (helementr hj hw) hr
        (has_of_isText (h.part _ _ _ hj' hw').isText) (hwithin hj' hw') (hold hj hj')
    · rw [hj, Option.some.injEq, Prod.mk.injEq] at hj'
      rw [hj'.1, compareOrder_self] at hlt
      cases hlt

include hu in
theorem Pieced.step_cut (hk : k ≤ (s.forest.characters t₀).length)
    (hpiece : s'.piece = s.cut t₀ k) : Pieced f d.root s' := by
  refine ⟨fun t whole i ht hw => ?_, ?_, ?_⟩
  · rw [hpiece] at ht
    obtain ⟨-, hj⟩ | ⟨rfl, j, hj, rfl⟩ := piece_cut ht
    · exact part_old hd hf h htext helement hr hm hj hw
    · exact part_tail hd hu hf h hf' htext helement hr hm hk hj hw
  · rw [hpiece]
    exact fun t => covered_cut hf h hf' htext helement hr hm
  · rw [hpiece]
    exact fun t whole i t' whole' i' => ordered_cut hd hf h hf' htext helement hr hm

end Cut

include hu in
/-- **An edit** keeps the parts where they have to be. -/
theorem Pieced.step (hs : Step s s') : Pieced f d.root s' := by
  have hf' := hf.step hd hs
  cases hs.effect hf.rooted.wellFormed hf.made with
  | refused hforest _ hpiece =>
    refine ⟨?_, ?_, ?_⟩
    · rw [hforest, hpiece]
      exact h.part
    · rw [hforest, hpiece]
      exact h.covered
    · rw [hforest, hpiece]
      exact h.ordered
  | shelled hquiet hhidden _ hpiece => exact h.step_shelled hd hf hf' hquiet hhidden hpiece
  | cut htext helement hk hr hm _ hpiece =>
    exact h.step_cut hd hu hf hf' htext helement hr hm hk hpiece

end Step

/-- **Along every run** the parts are where they have to be. -/
theorem Decorated.pieced (hd : d.Rooted f) (hu : d.IsUnmarked f) (h : Decorated f s) :
    Pieced f d.root s := by
  induction h with
  | refl => exact .start f d.root
  | tail hrun hs ih => exact ih.step hd hu (Decorated.faithful hd hrun) hs

end Decoration

end TreePointer
