import TreePointer.Proofs.Text.Offset
import TreePointer.Proofs.Tree.Walk

/-!
# Offsets of neighbours

Between a node and the one that follows it nothing is seen, nor between a node and the first leaf
below it. Among the children of a node a boundary is behind those before its offset, and what they
show.

* `textOffset_following`, `textOffset_preceding`, `textOffset_firstLeaf`: the neighbours of a node.
* `textOffset_below`: a boundary among children.
* `textOffset_drop`, `textOffset_take`: from a boundary to a child after or before it.
-/

namespace TreePointer.Forest.WellFormed

variable {f : Forest} {r n m p c : Node} (wf : f.WellFormed) (hr : f.Has r)

include wf

theorem preceding?_of_parent {left right : List Node} (h : f.children p = left ++ n :: right) :
    f.preceding? n = (left.getLast? <|> f.preceding? p) := by
  have hn : n ∈ f.children p := h ▸ List.mem_append_right _ List.mem_cons_self
  rw [preceding?, wf.previousSibling?_eq h, wf.findUp?_of_parent _ (wf.parent_of_mem hn),
    preceding?]

/-- At the bottom of the tree there are no more children. -/
theorem children_firstLeafWithin {k : Nat} (hn : f.Has n)
    (h : f.size ≤ k + (f.ancestors n).length) : f.children (f.firstLeafWithin k n) = [] := by
  induction k generalizing n with
  | zero => exact absurd (wf.depth_lt_size hn) (by omega)
  | succ k ih =>
    rw [firstLeafWithin]
    cases hfirst : (f.children n).head? with
    | none => exact List.head?_eq_none_iff.mp hfirst
    | some c =>
      have hmem := List.mem_of_head? hfirst
      exact ih (wf.has_child hmem) (by rw [wf.depth_child hmem]; omega)

theorem children_firstLeaf (hn : f.Has n) : f.children (f.firstLeaf n) = [] :=
  wf.children_firstLeafWithin hn (Nat.le_add_right _ _)

include hr

/-! ## Neighbours -/

/-- What follows a node starts where that ends. -/
theorem textOffset_following (htop : f.parent r = none) (hn : f.Within r n)
    (h : f.following? n = some m) :
    f.Within r m ∧ f.textOffset r ⟨m, 0⟩ = f.textOffset r ⟨n, 0⟩ + (f.places n).length := by
  obtain ⟨before, after, e, hnext⟩ := wf.following?_eq hr htop hn
  rw [hnext] at h
  obtain ⟨rest, rfl⟩ := List.head?_eq_some_iff.mp h
  have hm : f.Within r m := by
    rw [← wf.mem_preorder_iff hr, e]
    exact List.mem_append_right _ (List.mem_append_right _ List.mem_cons_self)
  have hmhas := wf.has_of_within hr hm
  obtain ⟨before', after', e'⟩ := wf.preorder_infix hr hm
  have hsplit : f.preorder r = (before ++ f.preorder n) ++ m :: rest := by
    rw [e, List.append_assoc]
  have hbefore : before ++ f.preorder n = before' := by
    have hnd : ((before ++ f.preorder n) ++ m :: rest).Nodup := hsplit ▸ wf.nodup_preorder hr
    rw [wf.preorder_eq hmhas, List.cons_append] at e'
    exact (append_cons_inj hnd (hsplit.symm.trans e')).1
  refine ⟨hm, ?_⟩
  rw [wf.textOffset_of_infix hr e' hmhas, ← hbefore, placesIn_append, List.length_append,
    wf.textOffset_of_infix hr e (wf.has_of_within hr hn), places_eq]

/-- What precedes a node ends where that starts. -/
theorem textOffset_preceding (hn : f.Within r n) (htop : f.parent r = none)
    (h : f.preceding? n = some m) :
    f.Within r m ∧ f.textOffset r ⟨m, 0⟩ + (f.places m).length = f.textOffset r ⟨n, 0⟩ := by
  induction n using wf.up_ends.induction with
  | _ n ih =>
    by_cases hne : n = r
    · subst hne
      have hup : f.findUp? f.previousSibling? n = none := by
        rw [findUp?_eq, ancestors_of_top htop, List.findSome?_nil]
      rw [preceding?, (sibling_of_top htop).2, hup] at h
      cases h
    · obtain ⟨p, hp, hpr⟩ := wf.exists_parent hn hne
      have hmem := wf.mem_of_parent hp
      obtain ⟨left, right, hs⟩ := List.append_of_mem hmem
      rw [wf.preceding?_of_parent hs] at h
      rw [← wf.textOffset_before_child hr hpr hmem, wf.slot_eq hs]
      cases hlast : left.getLast? with
      | none =>
        rw [hlast] at h
        rw [List.getLast?_eq_none_iff.mp hlast]
        exact ih p hp hpr h
      | some c =>
        obtain ⟨init, rfl⟩ := List.getLast?_eq_some_iff.mp hlast
        rw [hlast] at h
        obtain rfl : c = m := Option.some.inj h
        have hs' : f.children p = init ++ c :: n :: right := by
          rw [hs, List.append_assoc, List.singleton_append]
        have hc : c ∈ f.children p := hs' ▸ List.mem_append_right _ List.mem_cons_self
        refine ⟨wf.within_child hpr hc, ?_⟩
        rw [← wf.textOffset_after_child hr hpr hc, wf.slot_eq hs', List.length_append,
          List.length_singleton]

/-- The first leaf below a node starts where the node starts. -/
theorem textOffset_firstLeaf (hn : f.Within r n) :
    f.Within r (f.firstLeaf n) ∧ f.textOffset r ⟨f.firstLeaf n, 0⟩ = f.textOffset r ⟨n, 0⟩ := by
  unfold firstLeaf
  generalize f.size = k
  induction k generalizing n with
  | zero => exact ⟨hn, rfl⟩
  | succ k ih =>
    rw [firstLeafWithin]
    cases hfirst : (f.children n).head? with
    | none => exact ⟨hn, rfl⟩
    | some c =>
      obtain ⟨rest, hs⟩ := List.head?_eq_some_iff.mp hfirst
      have hc : c ∈ f.children n := List.mem_of_head? hfirst
      obtain ⟨hleaf, hoffset⟩ := ih (wf.within_child hn hc)
      refine ⟨hleaf, hoffset.trans ?_⟩
      have hs' : f.children n = [] ++ c :: rest := hs
      rw [← wf.textOffset_before_child hr hn hc, wf.slot_eq hs', List.length_nil]

/-! ## Boundaries among children -/

omit hr in
/-- What a shown text shows. -/
theorem length_places_of_isShown (hn : f.Has n) (hs : f.isShown n = true) :
    (f.places n).length = (f.characters n).length := by
  have hleaf := wf.children_of_not_container (not_container_of_isShown hs)
  rw [places_eq, wf.preorder_of_leaf hn hleaf, placesIn_singleton, if_pos hs, length_placesOf]

/-- What a node shows that is no text is what its children show. -/
theorem length_places_of_not_shown (hn : f.Within r n) (hs : f.isShown n = false) :
    (f.places n).length = ((f.children n).flatMap f.places).length := by
  rw [places_eq, wf.preorder_eq (wf.has_of_within hr hn), ← List.singleton_append, placesIn_append,
    placesIn_singleton, hs, if_neg Bool.false_ne_true, List.nil_append, placesIn_flatMap]

/-- A boundary in a node that is no text is behind the children before its offset. -/
theorem textOffset_below (hn : f.Within r n) (hs : f.isShown n = false) (i : Nat) :
    f.textOffset r ⟨n, i⟩
      = f.textOffset r ⟨n, 0⟩ + (((f.children n).take i).flatMap f.places).length := by
  have hhas := wf.has_of_within hr hn
  rw [wf.textOffset_within hr hn (b := ⟨n, i⟩) (.refl f n)]
  congr 1
  rcases Nat.le_total i (f.children n).length with hle | hge
  · have hown := wf.textOffset_children hhas (List.take_append_drop i (f.children n)).symm
    rwa [List.length_take, Nat.min_eq_left hle] at hown
  · -- behind the last child there is nothing to be behind of
    have hall := wf.textOffset_children hhas (List.append_nil (f.children n)).symm
    have hle := wf.textOffset_mono hhas (a := ⟨n, (f.children n).length⟩) (b := ⟨n, i⟩) (.refl f n)
      (.refl f n) (Boundary.compare_same rfl)
      (fun hgt => Nat.not_lt.mpr hge (Nat.compare_eq_gt.mp hgt))
    have hmax := textOffset_le n ⟨n, i⟩ (f := f)
    have hlen := wf.length_places_of_not_shown hhas (.refl f n) hs
    rw [List.take_of_length_le hge]
    omega

/-- From a boundary to the end of its container there is what the children after it show. -/
theorem textOffset_end (hn : f.Within r n) (hs : f.isShown n = false) (i : Nat) :
    f.textOffset r ⟨n, 0⟩ + (f.places n).length
      = f.textOffset r ⟨n, i⟩ + (((f.children n).drop i).flatMap f.places).length := by
  rw [wf.textOffset_below hr hn hs i, wf.length_places_of_not_shown hr hn hs, Nat.add_assoc,
    ← List.length_append, ← List.flatMap_append, List.take_append_drop]

/-- From a boundary to a child after it there is what the children between show. -/
theorem textOffset_drop {i : Nat} {passed rest : List Node} (hn : f.Within r n)
    (h : (f.children n).drop i = passed ++ c :: rest) :
    f.textOffset r ⟨c, 0⟩ = f.textOffset r ⟨n, i⟩ + (passed.flatMap f.places).length := by
  have hmem : c ∈ f.children n := by
    refine List.mem_of_mem_drop (i := i) ?_
    rw [h]
    exact List.mem_append_right _ List.mem_cons_self
  have hs := not_isShown_of_not_isText (wf.not_isText_of_mem_children hmem)
  have hsplit : f.children n = ((f.children n).take i ++ passed) ++ c :: rest := by
    rw [List.append_assoc, ← h, List.take_append_drop]
  have hslot : (f.children n).take (f.slot c) = (f.children n).take i ++ passed := by
    rw [wf.slot_eq hsplit]
    exact (congrArg (List.take _) hsplit).trans (List.take_left' rfl)
  rw [← wf.textOffset_before_child hr hn hmem, wf.textOffset_below hr hn hs, hslot,
    List.flatMap_append, List.length_append, wf.textOffset_below hr hn hs i, Nat.add_assoc]

/-- From a child before a boundary to the boundary there is what the children between show. -/
theorem textOffset_take {i : Nat} {before passed : List Node} (hn : f.Within r n)
    (h : (f.children n).take i = before ++ c :: passed) :
    f.textOffset r ⟨n, i⟩
      = f.textOffset r ⟨c, 0⟩ + (f.places c).length + (passed.flatMap f.places).length := by
  have hmem : c ∈ f.children n := by
    refine List.mem_of_mem_take (i := i) ?_
    rw [h]
    exact List.mem_append_right _ List.mem_cons_self
  have hs := not_isShown_of_not_isText (wf.not_isText_of_mem_children hmem)
  have hsplit : (f.children n).drop 0 = before ++ c :: (passed ++ (f.children n).drop i) := by
    rw [List.drop_zero, ← List.cons_append, ← List.append_assoc, ← h, List.take_append_drop]
  rw [wf.textOffset_below hr hn hs, h, wf.textOffset_drop hr hn hsplit, List.flatMap_append,
    List.flatMap_cons, List.length_append, List.length_append]
  omega

end TreePointer.Forest.WellFormed
