import TreePointer.Forest.Ancestry
import TreePointer.Forest.Preorder

/-!
# Well-formed forests

In a well-formed forest links and child lists say the same: a node is listed once, by its parent and
by nobody else, and going up always ends. Only containers have children. Then the number of nodes
bounds every chain of links, so that the walks that stop after that many levels are whole.

* `WellFormed.depth_lt_size`: a node has fewer ancestors than the forest has nodes.
* `WellFormed.ancestors_of_parent`: the ancestors of a node are its parent and the parent's own.
* `WellFormed.preorder_eq`: a subtree in order is its top, then the subtrees of the children.
-/

namespace TreePointer.Forest

/-- Links and child lists agree and form trees. -/
structure WellFormed (f : Forest) : Prop where
  has_parent : ∀ n p, f.parent n = some p → f.Has p
  mem_children_iff : ∀ p c, c ∈ f.children p ↔ f.parent c = some p
  nodup_children : ∀ p, (f.children p).Nodup
  up_ends : WellFounded fun p n => f.parent n = some p
  container_of_mem : ∀ p c, c ∈ f.children p → (f.kind p).isContainer

/-! ## Counting nodes -/

/-- Different nodes of a table of `k` records are at most `k`. -/
theorem length_le_of_nodup :
    ∀ (k : Nat) (ns : List Node), ns.Nodup → (∀ n ∈ ns, n.index < k) → ns.length ≤ k
  | 0, ns, _, h => by
    cases ns with
    | nil => exact Nat.le_refl 0
    | cons n ns => exact absurd (h n List.mem_cons_self) (Nat.not_lt_zero _)
  | k + 1, ns, hnd, h => by
    have hk : (ns.erase ⟨k⟩).length ≤ k := by
      refine length_le_of_nodup k _ (hnd.erase _) fun n hn => ?_
      have hmem := hnd.mem_erase_iff.mp hn
      have hlt := h n hmem.2
      have hne : n.index ≠ k := fun he => hmem.1 (by cases n; exact congrArg Node.mk he)
      omega
    have hle : ns.length ≤ (ns.erase ⟨k⟩).length + 1 := by
      rw [List.length_erase]
      split <;> omega
    omega

/-- A node with a parent is one of the forest. -/
theorem has_of_parent {f : Forest} {n p : Node} (h : f.parent n = some p) : f.Has n := by
  rcases Nat.lt_or_ge n.index f.size with hlt | hge
  · exact hlt
  · have hnone : f.records[n.index]? = none := Array.getElem?_eq_none hge
    simp [parent, record, hnone, Record.bare] at h

/-! ## Ancestors -/

/-- Every ancestor is above its descendant on the way up. -/
theorem transGen_of_mem {f : Forest} {k : Nat} {n a : Node} (h : a ∈ f.ancestorsWithin k n) :
    Relation.TransGen (fun p n => f.parent n = some p) a n := by
  induction k generalizing n with
  | zero => cases h
  | succ k ih =>
    unfold ancestorsWithin at h
    split at h
    · next p hp =>
      rcases List.mem_cons.mp h with rfl | ha
      · exact .single hp
      · exact (ih ha).tail hp
    · cases h

/-- A chain that ends before its bound does not grow with it. -/
theorem ancestorsWithin_succ {f : Forest} {k : Nat} {n : Node}
    (h : (f.ancestorsWithin k n).length < k) :
    f.ancestorsWithin (k + 1) n = f.ancestorsWithin k n := by
  induction k generalizing n with
  | zero => exact absurd h (Nat.not_lt_zero _)
  | succ k ih =>
    unfold ancestorsWithin at h ⊢
    split
    · next p hp =>
      rw [hp] at h
      rw [ih (Nat.lt_of_succ_lt_succ h)]
    · rfl

theorem ancestors_of_top {f : Forest} {n : Node} (h : f.parent n = none) : f.ancestors n = [] := by
  unfold ancestors
  cases f.size with
  | zero => rfl
  | succ k => simp only [ancestorsWithin, h]

theorem flatMap_congr_mem {α β : Type} {g h : α → List β} {xs : List α}
    (e : ∀ x ∈ xs, g x = h x) : xs.flatMap g = xs.flatMap h := by
  rw [List.flatMap_def, List.flatMap_def, List.map_congr_left e]

namespace WellFormed

variable {f : Forest} (wf : f.WellFormed)

include wf

theorem not_mem_ancestorsWithin (k : Nat) (n : Node) : n ∉ f.ancestorsWithin k n := by
  intro h
  have above := transGen_of_mem h
  clear h
  induction n using wf.up_ends.transGen.induction with
  | _ n ih => exact ih n above above

theorem nodup_chain (k : Nat) (n : Node) : (n :: f.ancestorsWithin k n).Nodup := by
  induction k generalizing n with
  | zero => simp [ancestorsWithin]
  | succ k ih =>
    refine List.nodup_cons.mpr ⟨wf.not_mem_ancestorsWithin (k + 1) n, ?_⟩
    unfold ancestorsWithin
    split
    · exact ih _
    · exact List.nodup_nil

theorem has_of_mem {k : Nat} {n a : Node} (h : a ∈ f.ancestorsWithin k n) : f.Has a := by
  induction k generalizing n with
  | zero => cases h
  | succ k ih =>
    unfold ancestorsWithin at h
    split at h
    · next p hp =>
      rcases List.mem_cons.mp h with rfl | ha
      · exact wf.has_parent n _ hp
      · exact ih ha
    · cases h

/-- A node has fewer ancestors than the forest has nodes. -/
theorem depth_lt_size {n : Node} (h : f.Has n) : (f.ancestors n).length < f.size := by
  refine length_le_of_nodup f.size (n :: f.ancestors n) (wf.nodup_chain f.size n) fun a ha => ?_
  rcases List.mem_cons.mp ha with rfl | hmem
  · exact h
  · exact wf.has_of_mem hmem

/-- **The ancestors of a node** are its parent and the ancestors of that. -/
theorem ancestors_of_parent {n p : Node} (h : f.parent n = some p) :
    f.ancestors n = p :: f.ancestors p := by
  have hlt := wf.depth_lt_size (has_of_parent h)
  unfold ancestors at hlt ⊢
  rw [← ancestorsWithin_succ hlt]
  simp only [ancestorsWithin, h]

theorem depth_child {p c : Node} (h : c ∈ f.children p) :
    (f.ancestors c).length = (f.ancestors p).length + 1 := by
  rw [wf.ancestors_of_parent ((wf.mem_children_iff p c).mp h), List.length_cons]

theorem has_child {p c : Node} (h : c ∈ f.children p) : f.Has c :=
  has_of_parent ((wf.mem_children_iff p c).mp h)

/-! ## Subtrees -/

theorem preorderWithin_succ {k : Nat} {n : Node} (hn : f.Has n)
    (h : f.size ≤ k + (f.ancestors n).length) :
    f.preorderWithin (k + 1) n = f.preorderWithin k n := by
  induction k generalizing n with
  | zero => exact absurd (wf.depth_lt_size hn) (by omega)
  | succ k ih =>
    rw [preorderWithin, preorderWithin]
    refine congrArg _ (flatMap_congr_mem fun c hc => ih (wf.has_child hc) ?_)
    rw [wf.depth_child hc]
    omega

/-- **A subtree in order** is its top, followed by the subtrees of the children. -/
theorem preorder_eq {n : Node} (h : f.Has n) :
    f.preorder n = n :: (f.children n).flatMap f.preorder := by
  rw [preorder_eq_within, ← wf.preorderWithin_succ h (Nat.le_add_right _ _), preorderWithin]
  simp only [funext f.preorder_eq_within]

end WellFormed

end TreePointer.Forest
