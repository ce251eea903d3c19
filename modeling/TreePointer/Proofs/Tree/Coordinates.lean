import TreePointer.Proofs.Tree.Order
import TreePointer.Range

/-!
# Boundaries of one tree are in a total order

A boundary has coordinates: for every node on the way down to its container the place of that node
among its siblings, then its offset. A child is passed between the offsets before and after it, so
places are odd and offsets even. The order of two boundaries of one tree is the lexicographic order
of their coordinates; it is total, and everything known about orders of lists holds for it.

* `WellFormed.compare_eq`: comparing boundaries is comparing coordinates.
* `WellFormed.compare_trans`, `WellFormed.compare_swap`: what this says about the order.
* `Boundary.isBefore`, `Boundary.notAfter`: the order as tests.
-/

namespace TreePointer

namespace Boundary

/-- Whether a boundary is before another one. Boundaries of different trees are not. -/
def isBefore (f : Forest) (a b : Boundary) : Bool :=
  match a.compare f b with
  | .ok .lt => true
  | _ => false

/-- Whether a boundary is not behind another one of its tree. -/
def notAfter (f : Forest) (a b : Boundary) : Bool :=
  match a.compare f b with
  | .ok o => o.isLE
  | .error _ => false

variable {f : Forest} {a b : Boundary}

theorem isBefore_iff : a.isBefore f b = true ↔ a.compare f b = .ok .lt := by
  unfold isBefore
  split
  · next h => simp [h]
  · next h => simp only [Bool.false_eq_true, false_iff]; exact h

theorem notAfter_of_compare {o : Ordering} (h : a.compare f b = .ok o) :
    a.notAfter f b = o.isLE := by
  rw [notAfter, h]

theorem exists_of_notAfter (h : a.notAfter f b = true) :
    ∃ o, a.compare f b = .ok o ∧ o ≠ .gt := by
  unfold notAfter at h
  split at h
  · next o ho => exact ⟨o, ho, by rintro rfl; cases h⟩
  · cases h

theorem compare_same (h : a.container = b.container) :
    a.compare f b = .ok (Ord.compare a.offset b.offset) := by
  rw [compare, if_pos h]

theorem ne_of_compareOrder {n m : Node} {o : Ordering} (h : f.compareOrder n m = .ok o)
    (ho : o ≠ .eq) : n ≠ m := by
  rintro rfl
  rw [Forest.compareOrder_self, Except.ok.injEq] at h
  exact ho h.symm

theorem compare_forward (h : f.compareOrder a.container b.container = .ok .lt) :
    a.compare f b = a.compareForward f b := by
  rw [compare, if_neg (ne_of_compareOrder h (by decide)), h]
  rfl

theorem compare_backward (h : f.compareOrder b.container a.container = .ok .lt) {o : Ordering}
    (ho : b.compareForward f a = .ok o) : a.compare f b = .ok o.swap := by
  rw [compare, if_neg (ne_of_compareOrder h (by decide)).symm, Forest.compareOrder_swap, h]
  show (return (← b.compareForward f a).swap) = _
  rw [ho]
  rfl

/-- Boundaries of different trees are in no order. -/
theorem compare_of_top_ne (h : f.top a.container ≠ f.top b.container) :
    a.compare f b = .error (.argument .differentTrees) := by
  have hne : a.container ≠ b.container := fun e => h (congrArg f.top e)
  rw [compare, if_neg hne, Forest.compareOrder_of_top_ne h]
  rfl

end Boundary

theorem Range.make_of_le {f : Forest} {a b : Boundary} {o : Ordering} (ha : a.InBounds f)
    (hb : b.InBounds f) (h : a.compare f b = .ok o) (ho : o ≠ .gt) :
    Range.make f a b = .ok ⟨a, b⟩ := by
  simp only [Range.make, Boundary.check, if_pos ha, if_pos hb, h, bind, Except.bind, pure,
    Except.pure]

namespace Forest

variable {f : Forest}

/-- The place of a node among its siblings. -/
def slot (f : Forest) (n : Node) : Nat := (f.childIndex? n).getD 0

/-- The coordinates of a boundary. -/
def coordinates (f : Forest) (b : Boundary) : List Nat :=
  (f.path b.container).map (fun n => 2 * f.slot n + 1) ++ [2 * b.offset]

namespace WellFormed

variable (wf : f.WellFormed)

include wf

/-! ## The child towards a node -/

theorem childIndex?_eq {p c : Node} {left right : List Node}
    (h : f.children p = left ++ c :: right) : f.childIndex? c = some left.length := by
  have hc : c ∈ f.children p := h ▸ List.mem_append_right left List.mem_cons_self
  have hnd : (left ++ c :: right).Nodup := h ▸ wf.nodup_children p
  simp only [childIndex?, wf.parent_of_mem hc, Option.bind_eq_bind, Option.bind_some, h]
  exact idxOf?_of_nodup hnd

theorem slot_eq {p c : Node} {left right : List Node} (h : f.children p = left ++ c :: right) :
    f.slot c = left.length := by
  rw [slot, wf.childIndex?_eq h, Option.getD_some]

theorem childTowards?_of_not_above {a n : Node} (h : a ∉ f.ancestors n) :
    f.childTowards? a n = none := by
  rw [childTowards?, List.find?_eq_none]
  intro c hc hp
  have ha : a ∈ f.ancestors c := wf.mem_ancestors_iff.mpr ⟨a, by simpa using hp, .refl f a⟩
  rcases List.mem_cons.mp hc with rfl | hc
  · exact h ha
  · exact h (wf.ancestors_trans ha hc)

/-- The child of `a` that leads down to `n` is the one that `n` lies in. -/
theorem childTowards?_of_child {a c n : Node} (hc : c ∈ f.children a) (h : f.Within c n) :
    f.childTowards? a n = some c := by
  have hac : a ∈ f.ancestors c := wf.mem_ancestors_of_within_child hc (.refl f c)
  induction n using wf.up_ends.induction with
  | _ n ih =>
    cases hp : f.parent n with
    | none =>
      rcases h with rfl | h
      · rw [wf.parent_of_mem hc] at hp
        cases hp
      · rw [ancestors_of_top hp] at h
        cases h
    | some p =>
      have hchain : f.chain n = n :: f.chain p := by
        rw [chain, wf.ancestors_of_parent hp, chain]
      by_cases hpa : p = a
      · subst hpa
        have hcn : c = n := by
          rcases h with rfl | h
          · rfl
          · -- a child of `p` cannot be `p` or above it
            obtain ⟨q, hq, hw⟩ := wf.mem_ancestors_iff.mp h
            rw [hp, Option.some.injEq] at hq
            subst hq
            rcases hw with rfl | hw
            · exact absurd hac (wf.not_mem_ancestors _)
            · exact absurd (wf.ancestors_trans hac hw) (wf.not_mem_ancestors _)
        rw [childTowards?, hchain, List.find?_cons_of_pos (by simp [hp]), hcn]
      · have hcp : f.Within c p := by
          refine wf.within_parent h ?_ hp
          rintro rfl
          rw [wf.parent_of_mem hc, Option.some.injEq] at hp
          exact hpa hp.symm
        rw [childTowards?, hchain, List.find?_cons_of_neg (by simp [hp, hpa])]
        exact ih p hp hcp

/-- Subtrees of siblings have no node in common. -/
theorem eq_of_within_both {p c c' n : Node} (hc : c ∈ f.children p) (hc' : c' ∈ f.children p)
    (h : f.Within c n) (h' : f.Within c' n) : c = c' := by
  have e := wf.childTowards?_of_child hc h
  rw [wf.childTowards?_of_child hc' h'] at e
  exact (Option.some.inj e).symm

/-! ## How two nodes lie to each other -/

/-- One of two nodes of a tree holds the other, or they are in the subtrees of two siblings. -/
theorem within_or_fork {r n m : Node} (hn : f.Within r n) (hm : f.Within r m) :
    f.Within n m ∨ f.Within m n ∨
      ∃ p c c', c ∈ f.children p ∧ c' ∈ f.children p ∧ c ≠ c' ∧ f.Within c n ∧ f.Within c' m := by
  induction r using wf.induction_down with
  | step r ih =>
    rcases hn with rfl | hn
    · exact Or.inl hm
    rcases hm with rfl | hm
    · exact Or.inr (Or.inl (Or.inr hn))
    obtain ⟨c, hc, hcn⟩ := wf.exists_child_within hn
    obtain ⟨c', hc', hcm⟩ := wf.exists_child_within hm
    by_cases h : c = c'
    · subst h
      exact ih c hc hcn hcm
    · exact Or.inr (Or.inr ⟨r, c, c', hc, hc', h, hcn, hcm⟩)

end WellFormed

/-! ## Coordinates -/

theorem compare_append_left (common xs ys : List Nat) :
    compare (common ++ xs) (common ++ ys) = compare xs ys := by
  induction common with
  | nil => rfl
  | cons x common ih =>
    rw [List.cons_append, List.cons_append, List.compare_cons_cons, ih, Nat.compare_eq_eq.mpr rfl]
    rfl

/-- Coordinates part where their containers part. -/
theorem coordinates_of_path {n : Node} {xs : List Node} {b : Boundary}
    (h : f.path b.container = f.path n ++ xs) :
    f.coordinates b = (f.path n).map (fun n => 2 * f.slot n + 1)
      ++ (xs.map (fun n => 2 * f.slot n + 1) ++ [2 * b.offset]) := by
  rw [coordinates, h, List.map_append, List.append_assoc]

theorem compare_cons_of_ne {x y : Nat} (h : x ≠ y) (xs ys : List Nat) :
    compare (x :: xs) (y :: ys) = compare x y := by
  rw [List.compare_cons_cons]
  rcases hc : compare x y with _ | _ | _
  · rfl
  · exact absurd (Nat.compare_eq_eq.mp hc) h
  · rfl

theorem compare_of_same {a b : Boundary} (h : a.container = b.container) :
    a.compare f b = .ok (compare (f.coordinates a) (f.coordinates b)) := by
  rw [Boundary.compare_same h, coordinates, coordinates, h, compare_append_left,
    List.compare_cons_cons, List.compare_nil_nil, Ordering.then_eq]
  congr 1
  rcases Nat.lt_trichotomy a.offset b.offset with ho | ho | ho
  · rw [Nat.compare_eq_lt.mpr ho, Nat.compare_eq_lt.mpr (by omega)]
  · rw [Nat.compare_eq_eq.mpr ho, Nat.compare_eq_eq.mpr (by omega)]
  · rw [Nat.compare_eq_gt.mpr ho, Nat.compare_eq_gt.mpr (by omega)]

namespace WellFormed

variable (wf : f.WellFormed)

include wf

theorem idxOf?_eq_slot {p c : Node} (hc : c ∈ f.children p) :
    (f.children p).idxOf? c = some (f.slot c) := by
  obtain ⟨left, right, e⟩ := List.append_of_mem hc
  rw [wf.slot_eq e, e]
  exact idxOf?_of_nodup (e ▸ wf.nodup_children p)

theorem childIndex?_eq_slot {p c : Node} (hc : c ∈ f.children p) :
    f.childIndex? c = some (f.slot c) := by
  obtain ⟨left, right, e⟩ := List.append_of_mem hc
  rw [wf.childIndex?_eq e, wf.slot_eq e]

theorem getElem?_slot {p c : Node} (hc : c ∈ f.children p) :
    (f.children p)[f.slot c]? = some c := by
  obtain ⟨left, right, e⟩ := List.append_of_mem hc
  rw [wf.slot_eq e, e, List.getElem?_append_right (Nat.le_refl _), Nat.sub_self]
  rfl

theorem slot_inj {p c c' : Node} (hc : c ∈ f.children p) (hc' : c' ∈ f.children p)
    (h : f.slot c = f.slot c') : c = c' := by
  have e := wf.getElem?_slot hc
  rw [h, wf.getElem?_slot hc'] at e
  exact (Option.some.inj e).symm

theorem placeOf_child {p c : Node} (hc : c ∈ f.children p) :
    Boundary.placeOf f c = .ok (p, f.slot c) := by
  rw [Boundary.placeOf, wf.parent_of_mem hc]
  simp only [wf.childIndex?_eq_slot hc]

/-- The range around a child is from its place to the next one. -/
theorem around_child {p c : Node} (hc : c ∈ f.children p) :
    Range.around f c = .ok ⟨⟨p, f.slot c⟩, ⟨p, f.slot c + 1⟩⟩ := by
  simp only [Range.around, Boundary.before, Boundary.after, wf.placeOf_child hc, bind, Except.bind,
    pure, Except.pure]

/-- Against a boundary below its container, a boundary is before or after a whole child. -/
theorem compareForward_of_child {a b : Boundary} {c : Node} (hc : c ∈ f.children a.container)
    (h : f.Within c b.container) :
    a.compareForward f b = .ok (if f.slot c < a.offset then .gt else .lt) := by
  simp only [Boundary.compareForward, wf.childTowards?_of_child hc h, wf.childIndex?_eq_slot hc]

theorem compareForward_of_not_above {a b : Boundary} (h : a.container ∉ f.ancestors b.container) :
    a.compareForward f b = .ok .lt := by
  simp only [Boundary.compareForward, wf.childTowards?_of_not_above h]

/-- A boundary of an earlier node is earlier, unless it has the other one inside. -/
theorem compare_of_earlier {a b : Boundary}
    (h : f.compareOrder a.container b.container = .ok .lt)
    (ha : a.container ∉ f.ancestors b.container) : a.compare f b = .ok .lt := by
  rw [Boundary.compare_forward h]
  exact wf.compareForward_of_not_above ha

/-- A boundary of a later node is later, unless the other one has it inside. -/
theorem compare_of_later {a b : Boundary}
    (h : f.compareOrder b.container a.container = .ok .lt)
    (hb : b.container ∉ f.ancestors a.container) : a.compare f b = .ok .gt := by
  exact Boundary.compare_backward h (wf.compareForward_of_not_above hb)

/-- The order of two boundaries, the container of the second below that of the first. -/
theorem compare_of_above {a b : Boundary} (h : a.container ∈ f.ancestors b.container) :
    a.compare f b = .ok (compare (f.coordinates a) (f.coordinates b)) := by
  obtain ⟨c, hc, hw⟩ := wf.exists_child_within h
  obtain ⟨xs, e⟩ := wf.path_through_child hc hw
  rw [Boundary.compare_forward (wf.compareOrder_of_above h), wf.compareForward_of_child hc hw,
    coordinates_of_path (List.append_nil _).symm, coordinates_of_path e, compare_append_left,
    List.map_nil, List.nil_append, List.map_cons, List.cons_append, compare_cons_of_ne (by omega)]
  by_cases hs : f.slot c < a.offset
  · rw [if_pos hs, Nat.compare_eq_gt.mpr (by omega)]
  · rw [if_neg hs, Nat.compare_eq_lt.mpr (by omega)]

/-- The order of two boundaries in the subtrees of two siblings. -/
theorem compare_of_fork {a b : Boundary} {p c c' : Node} (hc : c ∈ f.children p)
    (hc' : c' ∈ f.children p) (hne : c ≠ c') (ha : f.Within c a.container)
    (hb : f.Within c' b.container) :
    a.compare f b = .ok (compare (f.coordinates a) (f.coordinates b)) := by
  obtain ⟨xs, ea⟩ := wf.path_through_child hc ha
  obtain ⟨ys, eb⟩ := wf.path_through_child hc' hb
  have hslot : f.slot c ≠ f.slot c' := fun h => hne (wf.slot_inj hc hc' h)
  have horder : f.compareOrder a.container b.container
      = .ok (compare (f.slot c) (f.slot c')) := by
    rw [compareOrder_of_paths ea eb, comparePaths, if_neg hne]
    simp only [wf.idxOf?_eq_slot hc, wf.idxOf?_eq_slot hc']
  have hab : ¬ f.Within a.container b.container := fun h =>
    hne (wf.eq_of_within_both hc hc' (wf.within_trans ha h) hb)
  have hba : ¬ f.Within b.container a.container := fun h =>
    hne (wf.eq_of_within_both hc hc' ha (wf.within_trans hb h))
  rw [coordinates_of_path ea, coordinates_of_path eb, compare_append_left, List.map_cons,
    List.map_cons, List.cons_append, List.cons_append, compare_cons_of_ne (by omega)]
  have hodd : compare (2 * f.slot c + 1) (2 * f.slot c' + 1) = compare (f.slot c) (f.slot c') := by
    rcases Nat.lt_or_gt_of_ne hslot with h | h
    · rw [Nat.compare_eq_lt.mpr h, Nat.compare_eq_lt.mpr (by omega)]
    · rw [Nat.compare_eq_gt.mpr h, Nat.compare_eq_gt.mpr (by omega)]
  rw [hodd]
  rcases Nat.lt_or_gt_of_ne hslot with h | h
  · rw [Nat.compare_eq_lt.mpr h] at horder ⊢
    exact wf.compare_of_earlier horder fun h => hab (Or.inr h)
  · rw [Nat.compare_eq_gt.mpr h] at horder ⊢
    have hback : f.compareOrder b.container a.container = .ok .lt := by
      rw [compareOrder_swap, horder]
      rfl
    exact wf.compare_of_later hback fun h => hba (Or.inr h)

theorem compare_of_below {a b : Boundary} (h : b.container ∈ f.ancestors a.container) :
    a.compare f b = .ok (compare (f.coordinates a) (f.coordinates b)) := by
  have horder := wf.compareOrder_of_above h
  have hba := wf.compare_of_above h
  rw [Boundary.compare_forward horder] at hba
  rw [Boundary.compare_backward horder hba, ← Std.OrientedOrd.eq_swap]

/-- **Comparing two boundaries of a tree** is comparing their coordinates. -/
theorem compare_eq {r : Node} {a b : Boundary} (ha : f.Within r a.container)
    (hb : f.Within r b.container) :
    a.compare f b = .ok (compare (f.coordinates a) (f.coordinates b)) := by
  rcases wf.within_or_fork ha hb with h | h | ⟨p, c, c', hc, hc', hne, hca, hcb⟩
  · rcases h with h | h
    · exact compare_of_same h.symm
    · exact wf.compare_of_above h
  · rcases h with h | h
    · exact compare_of_same h
    · exact wf.compare_of_below h
  · exact wf.compare_of_fork hc hc' hne hca hcb

/-! ## The order -/

section Order

variable {r : Node} {a b c : Boundary} (ha : f.Within r a.container)
  (hb : f.Within r b.container)

include ha hb

/-- Two boundaries of one tree can be compared. -/
theorem exists_compare : ∃ o, a.compare f b = .ok o :=
  ⟨_, wf.compare_eq ha hb⟩

theorem compare_swap {o : Ordering} (h : a.compare f b = .ok o) :
    b.compare f a = .ok o.swap := by
  rw [wf.compare_eq ha hb, Except.ok.injEq] at h
  rw [wf.compare_eq hb ha, Std.OrientedOrd.eq_swap, h]

/-- In one tree a boundary is not behind another one just if that is not before it. -/
theorem notAfter_eq : a.notAfter f b = !b.isBefore f a := by
  obtain ⟨o, h⟩ := wf.exists_compare ha hb
  rw [Boundary.notAfter_of_compare h, Boundary.isBefore, wf.compare_swap ha hb h]
  cases o <;> rfl

/-- A boundary before another one is before all that are not before that. -/
theorem compare_trans (hc : f.Within r c.container) (hab : a.compare f b = .ok .lt) {o : Ordering}
    (hbc : b.compare f c = .ok o) (ho : o ≠ .gt) : a.compare f c = .ok .lt := by
  rw [wf.compare_eq ha hb, Except.ok.injEq] at hab
  rw [wf.compare_eq hb hc, Except.ok.injEq] at hbc
  have hle : (compare (f.coordinates b) (f.coordinates c)).isLE := by
    rw [hbc]
    cases o
    · rfl
    · rfl
    · exact absurd rfl ho
  rw [wf.compare_eq ha hc, Std.TransCmp.lt_of_lt_of_isLE hab hle]

end Order

/-- Boundaries of one tree are in some order, and others in none. -/
theorem compare_cases (a b : Boundary) :
    (f.top a.container ≠ f.top b.container ∧
      a.compare f b = .error (.argument .differentTrees)) ∨
    (f.top a.container = f.top b.container ∧
      ∃ o, a.compare f b = .ok o ∧ b.compare f a = .ok o.swap) := by
  by_cases h : f.top a.container = f.top b.container
  · have ha := f.within_top a.container
    have hb : f.Within (f.top a.container) b.container := h ▸ f.within_top b.container
    obtain ⟨o, ho⟩ := wf.exists_compare ha hb
    exact .inr ⟨h, o, ho, wf.compare_swap ha hb ho⟩
  · exact .inl ⟨h, Boundary.compare_of_top_ne h⟩

end WellFormed

end Forest

end TreePointer
