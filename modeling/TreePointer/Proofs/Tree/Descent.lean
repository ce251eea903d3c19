import TreePointer.Forest.WellFormed

/-!
# Above and below in a well-formed forest

A node is below another one if that is among its ancestors. Going up ends because links form no
cycle; going down ends because every level is one deeper and no node is deeper than the forest is
large. The second is an induction principle of its own: what holds of a node as soon as it holds of
its children holds of every node.

* `WellFormed.induction_down`: induction from the children to the node.
* `WellFormed.mem_preorder_iff`: a subtree holds its top and what is below it.
* `WellFormed.preorder_infix`: a subtree is a stretch of every subtree around it.
-/

namespace TreePointer.Forest

/-- The node is `r` or below it. -/
def Within (f : Forest) (r n : Node) : Prop := n = r ∨ r ∈ f.ancestors n

instance (f : Forest) (r n : Node) : Decidable (f.Within r n) :=
  inferInstanceAs (Decidable (_ ∨ _))

theorem Within.refl (f : Forest) (r : Node) : f.Within r r := Or.inl rfl

/-- A node that is not in the forest has no children. -/
theorem children_of_not_has {f : Forest} {n : Node} (h : ¬ f.Has n) : f.children n = [] := by
  have hnone : f.records[n.index]? = none := Array.getElem?_eq_none (Nat.le_of_not_lt h)
  simp [children, record, hnone, Record.bare]

theorem parent_of_not_has {f : Forest} {n : Node} (h : ¬ f.Has n) : f.parent n = none := by
  cases hp : f.parent n with
  | none => rfl
  | some p => exact absurd (has_of_parent hp) h

theorem kind_of_isText {f : Forest} {t : Node} (h : f.isText t = true) : f.kind t = .text :=
  beq_iff_eq.mp h

/-- A node that is not in the forest reads as a document. -/
theorem has_of_kind {f : Forest} {n : Node} (h : f.kind n ≠ .document) : f.Has n := by
  by_cases hn : f.Has n
  · exact hn
  · have hnone : f.records[n.index]? = none := Array.getElem?_eq_none (Nat.le_of_not_lt hn)
    rw [kind, record, hnone] at h
    exact absurd rfl h

theorem has_of_isText {f : Forest} {t : Node} (h : f.isText t = true) : f.Has t := by
  refine has_of_kind ?_
  rw [kind_of_isText h]
  decide

theorem kind_ne_document_of_isElement {f : Forest} {n : Node} (h : f.isElement n = true) :
    f.kind n ≠ .document := by
  rw [beq_iff_eq.mp h]
  decide

theorem has_of_isElement {f : Forest} {n : Node} (h : f.isElement n = true) : f.Has n :=
  has_of_kind (kind_ne_document_of_isElement h)

theorem isContainer_of_isElement {f : Forest} {n : Node} (h : f.isElement n = true) :
    (f.kind n).isContainer = true := by
  rw [beq_iff_eq.mp h]
  rfl

theorem not_isText_of_isContainer {f : Forest} {n : Node} (h : (f.kind n).isContainer = true) :
    f.isText n = false := by
  cases ht : f.isText n with
  | false => rfl
  | true =>
    rw [kind_of_isText ht] at h
    cases h

theorem not_isText_of_isElement {f : Forest} {n : Node} (h : f.isElement n = true) :
    f.isText n = false :=
  not_isText_of_isContainer (isContainer_of_isElement h)

namespace WellFormed

variable {f : Forest} (wf : f.WellFormed)

include wf

theorem parent_of_mem {p c : Node} (h : c ∈ f.children p) : f.parent c = some p :=
  (wf.mem_children_iff p c).mp h

theorem mem_of_parent {p c : Node} (h : f.parent c = some p) : c ∈ f.children p :=
  (wf.mem_children_iff p c).mpr h

theorem has_of_mem_children {p c : Node} (h : c ∈ f.children p) : f.Has p :=
  wf.has_parent c p (wf.parent_of_mem h)

/-- **Induction from the children to the node.** -/
theorem induction_down {P : Node → Prop} (step : ∀ n, (∀ c ∈ f.children n, P c) → P n)
    (n : Node) : P n := by
  suffices h : ∀ k n, f.size - (f.ancestors n).length ≤ k → P n from h _ n (Nat.le_refl _)
  intro k
  induction k with
  | zero =>
    intro n hn
    refine step n fun c hc => ?_
    have hlt := wf.depth_lt_size (wf.has_of_mem_children hc)
    omega
  | succ k ih =>
    intro n hn
    refine step n fun c hc => ih c ?_
    rw [wf.depth_child hc]
    omega

/-! ## Ancestors -/

theorem mem_ancestors_iff {a n : Node} :
    a ∈ f.ancestors n ↔ ∃ p, f.parent n = some p ∧ f.Within a p := by
  constructor
  · intro h
    cases hp : f.parent n with
    | none => rw [ancestors_of_top hp] at h; cases h
    | some p =>
      rw [wf.ancestors_of_parent hp, List.mem_cons] at h
      exact ⟨p, rfl, h.imp Eq.symm id⟩
  · rintro ⟨p, hp, h⟩
    rw [wf.ancestors_of_parent hp, List.mem_cons]
    exact h.imp Eq.symm id

theorem not_mem_ancestors (n : Node) : n ∉ f.ancestors n :=
  wf.not_mem_ancestorsWithin f.size n

theorem ne_of_mem_children {p c : Node} (h : c ∈ f.children p) : c ≠ p := by
  rintro rfl
  exact wf.not_mem_ancestors c
    (wf.mem_ancestors_iff.mpr ⟨c, wf.parent_of_mem h, .refl f c⟩)

/-- What is above an ancestor is further up on the same chain. -/
theorem ancestors_append {a n : Node} (h : a ∈ f.ancestors n) :
    ∃ near, f.ancestors n = near ++ a :: f.ancestors a := by
  induction n using wf.up_ends.induction with
  | _ n ih =>
    obtain ⟨p, hp, hw⟩ := wf.mem_ancestors_iff.mp h
    rw [wf.ancestors_of_parent hp]
    rcases hw with rfl | hw
    · exact ⟨[], rfl⟩
    · obtain ⟨near, e⟩ := ih p hp hw
      exact ⟨p :: near, by rw [e, List.cons_append]⟩

theorem ancestors_trans {a b c : Node} (hab : a ∈ f.ancestors b) (hbc : b ∈ f.ancestors c) :
    a ∈ f.ancestors c := by
  obtain ⟨near, e⟩ := wf.ancestors_append hbc
  rw [e]
  exact List.mem_append_right _ (List.mem_cons_of_mem _ hab)

theorem within_trans {a b c : Node} (hab : f.Within a b) (hbc : f.Within b c) :
    f.Within a c := by
  rcases hbc with rfl | hbc
  · exact hab
  · rcases hab with rfl | hab
    · exact Or.inr hbc
    · exact Or.inr (wf.ancestors_trans hab hbc)

/-- What is above a node is not below it. -/
theorem not_within_of_mem_ancestors {a n : Node} (h : a ∈ f.ancestors n) : ¬ f.Within n a := by
  rintro (rfl | hn)
  · exact wf.not_mem_ancestors a h
  · exact wf.not_mem_ancestors n (wf.ancestors_trans hn h)

/-- No node lies below its child. -/
theorem not_within_child {p c : Node} (h : c ∈ f.children p) : ¬ f.Within c p :=
  wf.not_within_of_mem_ancestors (wf.mem_ancestors_iff.mpr ⟨p, wf.parent_of_mem h, .refl f p⟩)

/-- No node lies below its sibling. -/
theorem not_within_sibling {p c c' : Node} (hc : c ∈ f.children p) (hc' : c' ∈ f.children p)
    (hne : c' ≠ c) : ¬ f.Within c c' := by
  rintro (h | h)
  · exact hne h
  · obtain ⟨q, hq, hw⟩ := wf.mem_ancestors_iff.mp h
    rw [wf.parent_of_mem hc', Option.some.injEq] at hq
    exact wf.not_within_child hc (hq ▸ hw)

theorem within_child {r p c : Node} (hp : f.Within r p) (hc : c ∈ f.children p) :
    f.Within r c :=
  Or.inr (wf.mem_ancestors_iff.mpr ⟨p, wf.parent_of_mem hc, hp⟩)

/-- A node below `r` other than `r` has its parent there. -/
theorem within_parent {r n p : Node} (hn : f.Within r n) (hne : n ≠ r)
    (hp : f.parent n = some p) : f.Within r p := by
  rcases hn with rfl | hn
  · exact absurd rfl hne
  · obtain ⟨q, hq, hw⟩ := wf.mem_ancestors_iff.mp hn
    rw [hp] at hq
    exact Option.some.inj hq ▸ hw

theorem exists_parent {r n : Node} (hn : f.Within r n) (hne : n ≠ r) :
    ∃ p, f.parent n = some p ∧ f.Within r p := by
  rcases hn with rfl | hn
  · exact absurd rfl hne
  · exact wf.mem_ancestors_iff.mp hn

theorem has_of_within {r n : Node} (hr : f.Has r) (hn : f.Within r n) : f.Has n := by
  rcases hn with rfl | hn
  · exact hr
  · obtain ⟨p, hp, -⟩ := wf.mem_ancestors_iff.mp hn
    exact has_of_parent hp

/-- All that is above a node of a tree lies below the top of the tree. -/
theorem within_of_mem_ancestors {r n a : Node} (htop : f.parent r = none) (hn : f.Within r n)
    (ha : a ∈ f.ancestors n) : f.Within r a := by
  induction n using wf.up_ends.induction with
  | _ n ih =>
    obtain ⟨p, hp, hw⟩ := wf.mem_ancestors_iff.mp ha
    have hne : n ≠ r := by
      rintro rfl
      rw [htop] at hp
      cases hp
    have hpr := wf.within_parent hn hne hp
    rcases hw with rfl | hw
    · exact hpr
    · exact ih p hp hpr hw

/-- Between a node and something below it lies one of its children. -/
theorem exists_child_within {a n : Node} (h : a ∈ f.ancestors n) :
    ∃ c ∈ f.children a, f.Within c n := by
  induction n using wf.up_ends.induction with
  | _ n ih =>
    obtain ⟨p, hp, hw⟩ := wf.mem_ancestors_iff.mp h
    rcases hw with rfl | hw
    · exact ⟨n, wf.mem_of_parent hp, .refl f n⟩
    · obtain ⟨c, hc, hcp⟩ := ih p hp hw
      exact ⟨c, hc, wf.within_trans hcp (Or.inr (wf.mem_ancestors_iff.mpr ⟨p, hp, .refl f p⟩))⟩

/-! ## Subtrees -/

/-- **A subtree** holds its top and everything below. -/
theorem mem_preorder_iff {r n : Node} (hr : f.Has r) :
    n ∈ f.preorder r ↔ f.Within r n := by
  constructor
  · intro h
    induction r using wf.induction_down with
    | step r ih =>
      rw [wf.preorder_eq hr, List.mem_cons, List.mem_flatMap] at h
      rcases h with rfl | ⟨c, hc, hn⟩
      · exact .refl f n
      · exact wf.within_trans (wf.within_child (.refl f r) hc) (ih c hc (wf.has_child hc) hn)
  · intro h
    induction r using wf.induction_down with
    | step r ih =>
      rw [wf.preorder_eq hr, List.mem_cons, List.mem_flatMap]
      rcases h with rfl | h
      · exact Or.inl rfl
      · obtain ⟨c, hc, hcn⟩ := wf.exists_child_within h
        exact Or.inr ⟨c, hc, ih c hc (wf.has_child hc) hcn⟩

/-- A node that holds character data is alone in its subtree. -/
theorem children_of_not_container {n : Node} (h : (f.kind n).isContainer = false) :
    f.children n = [] := by
  cases hc : f.children n with
  | nil => rfl
  | cons c cs =>
    have hk := wf.container_of_mem n c (hc ▸ List.mem_cons_self)
    rw [h] at hk
    cases hk

theorem not_isText_of_mem_children {p c : Node} (h : c ∈ f.children p) : f.isText p = false :=
  not_isText_of_isContainer (wf.container_of_mem p c h)

theorem preorder_of_leaf {n : Node} (hn : f.Has n) (h : f.children n = []) :
    f.preorder n = [n] := by
  rw [wf.preorder_eq hn, h, List.flatMap_nil]

/-- The subtree of a child is a stretch of the subtree of its parent. -/
theorem preorder_of_children {p c : Node} {before after : List Node}
    (h : f.children p = before ++ c :: after) :
    f.preorder p
      = (p :: before.flatMap f.preorder) ++ (f.preorder c ++ after.flatMap f.preorder) := by
  have hp : f.Has p :=
    wf.has_of_mem_children (h.symm ▸ List.mem_append_right before List.mem_cons_self)
  rw [wf.preorder_eq hp, h, List.flatMap_append, List.flatMap_cons, List.cons_append]

/-- The subtree of a node is a stretch of any subtree that holds it. -/
theorem preorder_infix {r n : Node} (hr : f.Has r) (h : f.Within r n) :
    ∃ before after, f.preorder r = before ++ (f.preorder n ++ after) := by
  induction r using wf.induction_down with
  | step r ih =>
    rcases h with rfl | h
    · exact ⟨[], [], by simp⟩
    · obtain ⟨c, hc, hcn⟩ := wf.exists_child_within h
      obtain ⟨left, right, hs⟩ := List.append_of_mem hc
      obtain ⟨before, after, e⟩ := ih c hc (wf.has_child hc) hcn
      refine ⟨(r :: left.flatMap f.preorder) ++ before, after ++ right.flatMap f.preorder, ?_⟩
      rw [wf.preorder_of_children hs, e]
      simp only [List.append_assoc]

end WellFormed

end TreePointer.Forest
