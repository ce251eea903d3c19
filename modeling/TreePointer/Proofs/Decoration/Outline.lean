import TreePointer.Proofs.Decoration.Edits
import TreePointer.Proofs.Text.Offset

/-!
# What a subtree reads as

What a subtree gives when it is read from its top down, with each node adding something before or
around what its children give, is the same in two forests if a stretch of children was replaced by
another one that gives the same. The outline of a subtree is such a reading: it lists nodes and
visible characters as they come, and so tells order, text and offsets at once.

* `Replaced.flatMap_eq`: readings that agree on what was replaced agree everywhere.
* `outline`: the nodes of a forest that was, and the visible characters, of a subtree.
* `order_of_outline`, `chars_of_outline`, `textOffset_of_outline`: what outlines tell.
-/

namespace TreePointer.Forest

variable {f g : Forest} {p : Node} {left old new right : List Node}

/-! ## Readings -/

theorem Replaced.not_mem_left (h : Replaced f g p left old new right) (wf : f.WellFormed)
    {n : Node} (hn : n ∈ left) : n ∉ old := by
  have hnd := h.children_old ▸ wf.nodup_children p
  rw [List.nodup_append] at hnd
  exact fun hold => hnd.2.2 n hn n (List.mem_append_left _ hold) rfl

theorem Replaced.not_mem_right (h : Replaced f g p left old new right) (wf : f.WellFormed)
    {n : Node} (hn : n ∈ right) : n ∉ old := by
  have hnd := h.children_old ▸ wf.nodup_children p
  rw [List.nodup_append, List.nodup_append] at hnd
  exact fun hold => hnd.2.1.2.2 n hold n hn rfl

theorem Replaced.mem_old (h : Replaced f g p left old new right) {n : Node} (hn : n ∈ old) :
    n ∈ f.children p :=
  h.children_old ▸ List.mem_append_right _ (List.mem_append_left _ hn)

/-- **Readings that agree on what was replaced agree everywhere**, except for the nodes `cut`, which
were replaced and changed. -/
theorem Replaced.flatMap_eq {α : Type} (h : Replaced f g p left old new right)
    (wf : f.WellFormed) {cut : List Node} (hcut : ∀ n ∈ cut, n ∈ old) {F G : Node → List α}
    (combine : Node → List α → List α)
    (hF : ∀ n, f.Has n → n ∉ cut → F n = combine n ((f.children n).flatMap F))
    (hG : ∀ n, f.Has n → n ∉ cut → G n = combine n ((g.children n).flatMap G))
    (hmid : (∀ n ∈ old, n ∉ cut → G n = F n) → new.flatMap G = old.flatMap F) (n : Node)
    (hn : f.Has n) :
    (g.children n).flatMap G = (f.children n).flatMap F ∧ (n ∉ cut → G n = F n) := by
  induction n using wf.induction_down with
  | step n ih =>
    have hchild : ∀ c ∈ f.children n, c ∉ cut → G c = F c := fun c hc =>
      (ih c hc (wf.has_child hc)).2
    have hchildren : (g.children n).flatMap G = (f.children n).flatMap F := by
      by_cases hnp : n = p
      · subst hnp
        have hkept : ∀ ns : List Node, (∀ c ∈ ns, c ∈ f.children n) → (∀ c ∈ ns, c ∉ old) →
            ns.flatMap G = ns.flatMap F := fun ns hmem hout =>
          flatMap_congr_mem fun c hc => hchild c (hmem c hc) fun e => hout c hc (hcut c e)
        have hsplit := h.children_old
        rw [h.children_new, hsplit, List.flatMap_append, List.flatMap_append, List.flatMap_append,
          List.flatMap_append, hmid fun c hc => hchild c (h.mem_old hc),
          hkept left (fun c hc => hsplit ▸ List.mem_append_left _ hc)
            (fun c hc => h.not_mem_left wf hc),
          hkept right
            (fun c hc => hsplit ▸ List.mem_append_right _ (List.mem_append_right _ hc))
            (fun c hc => h.not_mem_right wf hc)]
      · rw [h.children_eq n hn hnp]
        refine flatMap_congr_mem fun c hc => hchild c hc fun e => hnp ?_
        -- the replaced nodes are children of `p` alone
        have hp := wf.parent_of_mem (h.mem_old (hcut c e))
        rw [wf.parent_of_mem hc, Option.some.injEq] at hp
        exact hp
    refine ⟨hchildren, fun hncut => ?_⟩
    rw [hF n hn hncut, hG n hn hncut, hchildren]

/-! ## Outlines -/

/-- What a node itself adds to an outline: itself, if it was in the forest that was, and its
characters, if it is shown. -/
def outlineOf (was f : Forest) (n : Node) : List (Node ⊕ Char) :=
  (if was.Has n then [.inl n] else []) ++ (if f.isShown n then (f.characters n).map .inr else [])

/-- The nodes of a forest that was and the visible characters of a subtree, in document order. -/
def outline (was f : Forest) (n : Node) : List (Node ⊕ Char) :=
  (f.preorder n).flatMap (outlineOf was f)

theorem outline_eq (wf : f.WellFormed) (was : Forest) {n : Node} (hn : f.Has n) :
    outline was f n = outlineOf was f n ++ (f.children n).flatMap (outline was f) := by
  rw [outline, wf.preorder_eq hn, List.flatMap_cons, List.flatMap_assoc]
  rfl

theorem filterMap_left_outline (was f : Forest) (ns : List Node) :
    (ns.flatMap (outlineOf was f)).filterMap Sum.getLeft? = ns.filter fun n => was.Has n := by
  induction ns with
  | nil => rfl
  | cons n ns ih =>
    have hchars : ∀ cs : List Char,
        (cs.map (Sum.inr : Char → Node ⊕ Char)).filterMap Sum.getLeft? = [] := by
      intro cs
      rw [List.filterMap_map]
      exact List.filterMap_eq_nil_iff.mpr fun _ _ => rfl
    rw [List.flatMap_cons, List.filterMap_append, ih, outlineOf, List.filterMap_append]
    by_cases hn : was.Has n
    · rw [if_pos hn, List.filter_cons_of_pos (by simpa using hn)]
      split
      · rw [hchars]; rfl
      · rfl
    · rw [if_neg hn, List.filter_cons_of_neg (by simpa using hn)]
      split
      · rw [hchars]; rfl
      · rfl

theorem filterMap_right_outline (was f : Forest) (ns : List Node) :
    (ns.flatMap (outlineOf was f)).filterMap Sum.getRight? = (f.placesIn ns).map Place.char := by
  induction ns with
  | nil => rfl
  | cons n ns ih =>
    have hnode : (if was.Has n then [(Sum.inl n : Node ⊕ Char)] else []).filterMap Sum.getRight?
        = [] := by
      split <;> rfl
    rw [List.flatMap_cons, List.filterMap_append, ih, outlineOf, List.filterMap_append, hnode,
      List.nil_append, ← List.singleton_append, placesIn_append, List.map_append,
      placesIn_singleton]
    congr 1
    split
    · rw [List.filterMap_map, map_char_placesOf]
      exact List.filterMap_some
    · rfl

/-- Outlines tell the order of the nodes. -/
theorem order_of_outline {was : Forest} {r : Node} (h : outline was g r = outline was f r) :
    (g.preorder r).filter (fun n => was.Has n) = (f.preorder r).filter fun n => was.Has n := by
  rw [← filterMap_left_outline was g, ← filterMap_left_outline was f]
  exact congrArg _ h

/-- Outlines tell the visible text. -/
theorem chars_of_outline {was : Forest} {r : Node} (h : outline was g r = outline was f r) :
    g.visibleChars r = f.visibleChars r := by
  rw [visibleChars, visibleChars, places_eq, places_eq, ← filterMap_right_outline was g,
    ← filterMap_right_outline was f]
  exact congrArg _ h

theorem append_cons_inj_of_not_mem {α : Type} {a : α} {xs ys xs' ys' : List α} (ha : a ∉ xs)
    (ha' : a ∉ xs') (h : xs ++ a :: ys = xs' ++ a :: ys') : xs = xs' := by
  induction xs generalizing xs' with
  | nil =>
    cases xs' with
    | nil => rfl
    | cons x xs' =>
      rw [List.nil_append, List.cons_append, List.cons.injEq] at h
      exact absurd (h.1 ▸ List.mem_cons_self) ha'
  | cons x xs ih =>
    rw [List.mem_cons, not_or] at ha
    cases xs' with
    | nil =>
      rw [List.nil_append, List.cons_append, List.cons.injEq] at h
      exact absurd h.1.symm ha.1
    | cons x' xs' =>
      rw [List.mem_cons, not_or] at ha'
      rw [List.cons_append, List.cons_append, List.cons.injEq] at h
      rw [h.1, ih ha.2 ha'.2 h.2]

/-- A node starts behind what its outline lists before it. -/
theorem outline_split (wf : f.WellFormed) {was : Forest} {r n : Node} (hr : f.Has r)
    (hwas : was.Has n) (hn : f.Within r n) :
    ∃ before after, outline was f r = before ++ .inl n :: after ∧ .inl n ∉ before ∧
      f.textOffset r ⟨n, 0⟩ = (before.filterMap Sum.getRight?).length := by
  have hnhas := wf.has_of_within hr hn
  obtain ⟨before, after, e⟩ := wf.preorder_infix hr hn
  have e' : f.preorder r = before ++ n :: ((f.children n).flatMap f.preorder ++ after) := by
    rw [e, wf.preorder_eq hnhas, List.cons_append]
  refine ⟨before.flatMap (outlineOf was f),
    (if f.isShown n then (f.characters n).map .inr else []) ++
      ((f.children n).flatMap f.preorder ++ after).flatMap (outlineOf was f), ?_, ?_, ?_⟩
  · rw [outline, e', List.flatMap_append, List.flatMap_cons, outlineOf, if_pos hwas]
    rfl
  · intro hmem
    obtain ⟨m, hm, hmn⟩ := List.mem_flatMap.mp hmem
    have hmn' : m = n := by
      rw [outlineOf, List.mem_append] at hmn
      rcases hmn with hmn | hmn
      · split at hmn
        · exact (Sum.inl.inj (List.mem_singleton.mp hmn)).symm
        · cases hmn
      · split at hmn
        · obtain ⟨c, -, hc⟩ := List.mem_map.mp hmn
          cases hc
        · cases hmn
    exact wf.not_mem_before hr e' (hmn' ▸ hm)
  · have hstart := wf.textOffset_start hnhas
    rw [textOffset, wf.placesBefore_within hr e hnhas (.refl f n), List.length_append, ← textOffset,
      hstart, Nat.add_zero, filterMap_right_outline, List.length_map]

/-- Outlines tell where nodes start. -/
theorem textOffset_of_outline {was : Forest} {r n : Node} (wf : f.WellFormed) (wf' : g.WellFormed)
    (hr : f.Has r) (hr' : g.Has r) (h : outline was g r = outline was f r) (hwas : was.Has n)
    (hn : f.Within r n) (hn' : g.Within r n) :
    g.textOffset r ⟨n, 0⟩ = f.textOffset r ⟨n, 0⟩ := by
  obtain ⟨before, after, e, hnot, hoffset⟩ := outline_split wf hr hwas hn
  obtain ⟨before', after', e', hnot', hoffset'⟩ := outline_split wf' hr' hwas hn'
  rw [hoffset, hoffset', append_cons_inj_of_not_mem hnot' hnot (e'.symm.trans (h.trans e))]

end TreePointer.Forest
