import TreePointer.Neighbour
import TreePointer.Proofs.Tree.Coordinates

/-!
# Walks follow the list of the tree

The steps to the next and the previous node in document order follow the list of the tree, and a
walk to the nearest node that meets a condition looks through the list from where it stands.

* `WellFormed.nextInOrder?_eq`, `WellFormed.previousInOrder?_eq`: one step.
* `WellFormed.nextVisible?_eq`, `WellFormed.previousVisible?_eq`: the nearest visible texts.
* `WellFormed.nextUnmarked?_eq`: the next node that is no decoration.
-/

namespace TreePointer.Forest

variable {f : Forest}

/-- A walk whose steps follow a list looks through the list. -/
theorem firstOnWalk_eq {step : Node → Option Node} (accept : Node → Bool) {ns : List Node} {k : Nat}
    (hstep : ∀ xs x ys, ns = xs ++ x :: ys → step x = ys.head?) (hk : ns.length ≤ k) :
    firstOnWalk step accept k ns.head? = ns.find? accept := by
  induction k generalizing ns with
  | zero =>
    rw [List.length_eq_zero_iff.mp (Nat.le_zero.mp hk)]
    rfl
  | succ k ih =>
    cases ns with
    | nil => rfl
    | cons n ns =>
      rw [List.head?_cons, firstOnWalk, List.find?_cons]
      cases accept n with
      | true => rfl
      | false =>
        rw [hstep [] n ns rfl]
        refine ih (fun xs x ys e => hstep (n :: xs) x ys ?_) (Nat.le_of_succ_le_succ hk)
        rw [e, List.cons_append]

/-- Where an element stands in a list without repetitions is determined. -/
theorem append_cons_inj {n : Node} {xs ys xs' ys' : List Node} (hnd : (xs ++ n :: ys).Nodup)
    (h : xs ++ n :: ys = xs' ++ n :: ys') : xs = xs' ∧ ys = ys' := by
  have hi := idxOf?_of_nodup hnd
  have hi' := idxOf?_of_nodup (h ▸ hnd)
  rw [h, hi', Option.some.injEq] at hi
  exact (List.append_inj h hi.symm).imp id fun e => (List.cons.inj e).2

/-- Whether a node has no children. -/
def isLeaf (f : Forest) (n : Node) : Bool := (f.children n).isEmpty

theorem sibling_of_top {n : Node} (h : f.parent n = none) :
    f.nextSibling? n = none ∧ f.previousSibling? n = none := by
  have hi : f.childIndex? n = none := by
    simp [childIndex?, h]
  simp [nextSibling?, previousSibling?, hi]

namespace WellFormed

variable (wf : f.WellFormed)

include wf

/-! ## Siblings -/

section Siblings

variable {p n : Node} {left right : List Node} (h : f.children p = left ++ n :: right)

include h

theorem nextSibling?_eq : f.nextSibling? n = right.head? := by
  have hn : n ∈ f.children p := h ▸ List.mem_append_right _ List.mem_cons_self
  simp only [nextSibling?, wf.childIndex?_eq h, wf.parent_of_mem hn, childAt?, h,
    Option.bind_eq_bind, Option.bind_some]
  rw [List.getElem?_append_right (Nat.le_succ _), Nat.succ_sub (Nat.le_refl _), Nat.sub_self,
    List.getElem?_cons_succ, List.head?_eq_getElem?]

theorem previousSibling?_eq : f.previousSibling? n = left.getLast? := by
  have hn : n ∈ f.children p := h ▸ List.mem_append_right _ List.mem_cons_self
  simp only [previousSibling?, wf.childIndex?_eq h, wf.parent_of_mem hn, childAt?, h,
    Option.bind_eq_bind, Option.bind_some]
  cases hlen : left.length with
  | zero =>
    rw [List.length_eq_zero_iff.mp hlen]
    rfl
  | succ i =>
    show (left ++ n :: right)[i]? = _
    rw [List.getElem?_append_left (by omega), List.getLast?_eq_getElem?, hlen, Nat.add_sub_cancel]

end Siblings

/-! ## Forwards -/

theorem findUp?_of_parent {α : Type} {n p : Node} (g : Node → Option α) (h : f.parent n = some p) :
    f.findUp? g n = (g p <|> f.findUp? g p) := by
  rw [findUp?_eq, wf.ancestors_of_parent h, List.findSome?_cons, findUp?_eq]
  cases g p <;> rfl

theorem following?_of_parent {n p : Node} {left right : List Node}
    (h : f.children p = left ++ n :: right) :
    f.following? n = (right.head? <|> f.following? p) := by
  have hn : n ∈ f.children p := h ▸ List.mem_append_right _ List.mem_cons_self
  rw [following?, wf.nextSibling?_eq h, wf.findUp?_of_parent _ (wf.parent_of_mem hn), following?]

/-- What follows a subtree is the next node in the list behind it. -/
theorem following?_eq {r n : Node} (hr : f.Has r) (htop : f.parent r = none) (hn : f.Within r n) :
    ∃ before after, f.preorder r = before ++ (f.preorder n ++ after) ∧
      f.following? n = after.head? := by
  induction n using wf.up_ends.induction with
  | _ n ih =>
    by_cases hne : n = r
    · subst hne
      have hup : f.findUp? f.nextSibling? n = none := by
        rw [findUp?_eq, ancestors_of_top htop, List.findSome?_nil]
      refine ⟨[], [], by simp, ?_⟩
      rw [following?, (sibling_of_top htop).1, hup]
      rfl
    · obtain ⟨p, hp, hpr⟩ := wf.exists_parent hn hne
      obtain ⟨before, after, e, hnext⟩ := ih p hp hpr
      obtain ⟨left, right, hs⟩ := List.append_of_mem (wf.mem_of_parent hp)
      refine ⟨before ++ (p :: left.flatMap f.preorder), right.flatMap f.preorder ++ after, ?_, ?_⟩
      · rw [e, wf.preorder_of_children hs]
        simp only [List.append_assoc]
      · rw [wf.following?_of_parent hs, hnext]
        cases right with
        | nil => rfl
        | cons c right =>
          have hc : f.Has c := wf.has_child (p := p) (by
            rw [hs]
            exact List.mem_append_right _ (List.mem_cons_of_mem _ List.mem_cons_self))
          rw [List.flatMap_cons, wf.preorder_eq hc]
          rfl

/-- **The next node** is the next one in the list of the tree. -/
theorem nextInOrder?_eq {r n : Node} {before after : List Node} (hr : f.Has r)
    (htop : f.parent r = none) (h : f.preorder r = before ++ n :: after) :
    f.nextInOrder? n = after.head? := by
  have hn : f.Within r n := by
    rw [← wf.mem_preorder_iff hr, h]
    exact List.mem_append_right _ List.mem_cons_self
  have hhas := wf.has_of_within hr hn
  obtain ⟨before', after', e, hnext⟩ := wf.following?_eq hr htop hn
  rw [wf.preorder_eq hhas, List.cons_append] at e
  have hnd : (before ++ n :: after).Nodup := h ▸ wf.nodup_preorder hr
  obtain ⟨-, rfl⟩ := append_cons_inj hnd (h.symm.trans e)
  rw [nextInOrder?, hnext]
  cases hkids : f.children n with
  | nil => rfl
  | cons c cs =>
    have hc : f.Has c := wf.has_child (p := n) (hkids ▸ List.mem_cons_self)
    rw [List.flatMap_cons, wf.preorder_eq hc]
    rfl

/-! ## Backwards -/

/-- The last leaf of a subtree is the last node in its list. -/
theorem lastLeafWithin_eq {k : Nat} {n : Node} (hn : f.Has n)
    (h : f.size ≤ k + (f.ancestors n).length) :
    (f.preorder n).getLast? = some (f.lastLeafWithin k n) := by
  induction k generalizing n with
  | zero => exact absurd (wf.depth_lt_size hn) (by omega)
  | succ k ih =>
    rw [wf.preorder_eq hn, lastLeafWithin]
    cases hlast : (f.children n).getLast? with
    | none =>
      rw [List.getLast?_eq_none_iff.mp hlast]
      rfl
    | some c =>
      obtain ⟨init, e⟩ := List.getLast?_eq_some_iff.mp hlast
      have hmem : c ∈ f.children n := List.mem_of_getLast? hlast
      have hc := ih (wf.has_child hmem) (by rw [wf.depth_child hmem]; omega)
      rw [e, List.flatMap_append, List.flatMap_singleton, ← List.cons_append,
        List.getLast?_append, hc]
      rfl

/-- **The previous node** is the one before it in the list of the tree. -/
theorem previousInOrder?_eq {r n : Node} {before after : List Node} (hr : f.Has r)
    (htop : f.parent r = none) (h : f.preorder r = before ++ n :: after) :
    f.previousInOrder? n = before.getLast? := by
  have hn : f.Within r n := by
    rw [← wf.mem_preorder_iff hr, h]
    exact List.mem_append_right _ List.mem_cons_self
  have hnd : (before ++ n :: after).Nodup := h ▸ wf.nodup_preorder hr
  by_cases hne : n = r
  · subst hne
    have e : before ++ n :: after = [] ++ n :: (f.children n).flatMap f.preorder := by
      rw [← h, wf.preorder_eq hr, List.nil_append]
    obtain ⟨rfl, -⟩ := append_cons_inj hnd e
    rw [previousInOrder?, (sibling_of_top htop).2]
    exact htop
  · obtain ⟨p, hp, hpr⟩ := wf.exists_parent hn hne
    obtain ⟨left, right, hs⟩ := List.append_of_mem (wf.mem_of_parent hp)
    obtain ⟨before', after', e⟩ := wf.preorder_infix hr hpr
    have e' : before ++ n :: after = (before' ++ (p :: left.flatMap f.preorder)) ++
        n :: ((f.children n).flatMap f.preorder ++ (right.flatMap f.preorder ++ after')) := by
      rw [← h, e, wf.preorder_of_children hs, wf.preorder_eq (wf.has_of_within hr hn)]
      simp only [List.append_assoc, List.cons_append]
    obtain ⟨rfl, -⟩ := append_cons_inj hnd e'
    rw [previousInOrder?, wf.previousSibling?_eq hs]
    cases hlast : left.getLast? with
    | none =>
      rw [List.getLast?_eq_none_iff.mp hlast]
      simp [hp]
    | some c =>
      obtain ⟨init, rfl⟩ := List.getLast?_eq_some_iff.mp hlast
      have hc : c ∈ f.children p := by
        rw [hs]
        exact List.mem_append_left _ (List.mem_append_right _ List.mem_cons_self)
      have hleaf := wf.lastLeafWithin_eq (k := f.size) (wf.has_child hc) (Nat.le_add_right _ _)
      rw [List.flatMap_append, List.flatMap_singleton, ← List.cons_append, ← List.append_assoc,
        List.getLast?_append, hleaf]
      rfl

/-! ## The nearest visible texts -/

theorem length_preorder_le {r : Node} (hr : f.Has r) : (f.preorder r).length ≤ f.size :=
  length_le_of_nodup f.size _ (wf.nodup_preorder hr) fun _ hn =>
    wf.has_of_within hr ((wf.mem_preorder_iff hr).mp hn)

/-- A text has nothing below it, so the walk to the next visible text starts at the next node. -/
theorem visibleStart_eq (n : Node) :
    (if f.isText n then f.following? n else f.nextInOrder? n) = f.nextInOrder? n := by
  split
  · next ht =>
    have hkids : f.children n = [] := wf.children_of_not_container (by rw [beq_iff_eq.mp ht]; rfl)
    rw [nextInOrder?, hkids]
    rfl
  · rfl

section Visible

variable {r t : Node} {before after : List Node} (hr : f.Has r) (htop : f.parent r = none)
  (h : f.preorder r = before ++ t :: after)

include hr htop h

/-- Step by step to the next node goes through what is behind a node in the list. -/
theorem nextInOrder?_behind {xs ys : List Node} {x : Node} (e : after = xs ++ x :: ys) :
    f.nextInOrder? x = ys.head? := by
  have e' : f.preorder r = (before ++ t :: xs) ++ x :: ys := by
    rw [h, e, List.append_assoc, List.cons_append]
  exact wf.nextInOrder?_eq hr htop e'

/-- Step by step to the previous node goes back through what is in front of a node in the list. -/
theorem previousInOrder?_ahead {xs ys : List Node} {x : Node} (e : before.reverse = xs ++ x :: ys) :
    f.previousInOrder? x = ys.head? := by
  have e' : before = ys.reverse ++ x :: xs.reverse := by
    rw [← List.reverse_reverse before, e]
    simp
  have e'' : f.preorder r = ys.reverse ++ x :: (xs.reverse ++ t :: after) := by
    rw [h, e', List.append_assoc, List.cons_append]
  rw [wf.previousInOrder?_eq hr htop e'', List.getLast?_reverse]

/-- The previous visible text is the last one before in the list. -/
theorem previousVisible?_eq : f.previousVisible? t = before.reverse.find? f.isVisible := by
  have hlen := wf.length_preorder_le hr
  rw [h, List.length_append] at hlen
  rw [previousVisible?, wf.previousInOrder?_eq hr htop h, walk, List.getLast?_eq_head?_reverse]
  exact firstOnWalk_eq _ (fun _ _ _ e => wf.previousInOrder?_ahead hr htop h e)
    (by rw [List.length_reverse]; omega)

/-- The next visible text is the first one behind in the list. -/
theorem nextVisible?_eq : f.nextVisible? t = after.find? f.isVisible := by
  have hlen := wf.length_preorder_le hr
  rw [h, List.length_append, List.length_cons] at hlen
  rw [nextVisible?, wf.visibleStart_eq, wf.nextInOrder?_eq hr htop h, walk]
  exact firstOnWalk_eq _ (fun _ _ _ e => wf.nextInOrder?_behind hr htop h e) (by omega)

end Visible

/-! ## Past decoration -/

/-- In the list of the tree a node stands in front of its subtree. -/
theorem preorder_behind {r n : Node} {before after : List Node} (hr : f.Has r)
    (h : f.preorder r = before ++ n :: after) : f.Within r n ∧
      f.preorder r = before ++ (f.preorder n ++ after.drop ((f.preorder n).length - 1)) := by
  have hn : f.Within r n := by
    rw [← wf.mem_preorder_iff hr, h]
    exact List.mem_append_right _ List.mem_cons_self
  refine ⟨hn, ?_⟩
  obtain ⟨left, right, e⟩ := wf.preorder_infix hr hn
  have hnd : (before ++ n :: after).Nodup := h ▸ wf.nodup_preorder hr
  rw [h, wf.preorder_eq (wf.has_of_within hr hn)] at e ⊢
  obtain ⟨-, hafter⟩ := append_cons_inj hnd e
  rw [hafter]
  simp

/-- The first leaf of a subtree is the first node without children in its list. -/
theorem firstLeafWithin_eq {k : Nat} {n : Node} (hn : f.Has n)
    (h : f.size ≤ k + (f.ancestors n).length) :
    (f.preorder n).find? f.isLeaf = some (f.firstLeafWithin k n) := by
  induction k generalizing n with
  | zero => exact absurd (wf.depth_lt_size hn) (by omega)
  | succ k ih =>
    rw [wf.preorder_eq hn, firstLeafWithin, List.find?_cons, isLeaf]
    cases hkids : f.children n with
    | nil => rfl
    | cons c cs =>
      have hmem : c ∈ f.children n := hkids ▸ List.mem_cons_self
      have hc := ih (wf.has_child hmem) (by rw [wf.depth_child hmem]; omega)
      rw [List.flatMap_cons, List.find?_append, hc]
      rfl

section Unmarked

variable {r n : Node} {before behind : List Node} (hr : f.Has r) (htop : f.parent r = none)
  (hn : f.Within r n) (h : f.preorder r = before ++ (f.preorder n ++ behind))

include hr htop hn h

/-- The first leaf of what follows a subtree is the first node without children behind it. -/
theorem firstLeaf_following?_eq :
    (f.following? n).map f.firstLeaf = behind.find? f.isLeaf := by
  have hnd := wf.nodup_preorder hr
  obtain ⟨before', behind', e, hnext⟩ := wf.following?_eq hr htop hn
  rw [h, wf.preorder_eq (wf.has_of_within hr hn), List.cons_append] at hnd e
  obtain ⟨-, hbehind⟩ := append_cons_inj hnd e
  obtain rfl : behind = behind' := List.append_cancel_left hbehind
  rw [hnext]
  cases behind with
  | nil => rfl
  | cons c cs =>
    -- what is behind begins with the whole subtree of its first node
    have hc : f.Within r c := by
      rw [← wf.mem_preorder_iff hr, h]
      exact List.mem_append_right _ (List.mem_append_right _ List.mem_cons_self)
    have hhas := wf.has_of_within hr hc
    obtain ⟨left, right, e'⟩ := wf.preorder_infix hr hc
    rw [h, wf.preorder_eq hhas, ← List.append_assoc, List.cons_append] at e'
    have hnd' : (before ++ f.preorder n ++ c :: cs).Nodup := by
      rw [List.append_assoc, ← h]
      exact wf.nodup_preorder hr
    obtain ⟨-, rfl⟩ := append_cons_inj hnd' e'
    rw [List.head?_cons, Option.map_some, ← List.cons_append, ← wf.preorder_eq hhas,
      List.find?_append, wf.firstLeafWithin_eq hhas (Nat.le_add_right _ _)]
    rfl

/-- **The next node that is no decoration** is the first one of the node itself and the leaves
behind its subtree. -/
theorem nextUnmarked?_eq : f.nextUnmarked? n = (n :: behind.filter f.isLeaf).find?
    fun m => !(f.isIgnored m || f.isBlankText m) := by
  have hlen := wf.length_preorder_le hr
  rw [h, wf.preorder_eq (wf.has_of_within hr hn)] at hlen
  rw [nextUnmarked?, walk]
  show firstOnWalk _ _ _ (n :: behind.filter f.isLeaf).head? = _
  refine firstOnWalk_eq _ (fun xs x ys e => ?_) ?_
  · cases xs with
    | nil =>
      obtain ⟨rfl, rfl⟩ := List.cons.inj e
      rw [wf.firstLeaf_following?_eq hr htop hn h, List.head?_filter]
    | cons _ xs =>
      obtain ⟨-, e⟩ := List.cons.inj e
      obtain ⟨left, right, rfl, rfl, e'⟩ := List.filter_eq_append_iff.mp e
      obtain ⟨passed, rest, rfl, -, hleaf, rfl⟩ := List.filter_eq_cons_iff.mp e'
      have hx : f.Within r x := by
        rw [← wf.mem_preorder_iff hr, h]
        simp
      have hsingle := wf.preorder_of_leaf (wf.has_of_within hr hx) (List.isEmpty_iff.mp hleaf)
      have hsplit : f.preorder r
          = (before ++ (f.preorder n ++ (left ++ passed))) ++ (f.preorder x ++ rest) := by
        rw [h, hsingle]
        simp
      rw [wf.firstLeaf_following?_eq hr htop hx hsplit, List.head?_filter]
  · have hfilter := List.length_filter_le f.isLeaf behind
    simp only [List.length_append, List.length_cons] at hlen ⊢
    omega

end Unmarked

end WellFormed

end TreePointer.Forest
