import Mathlib.Data.List.Find
import Mathlib.Data.List.Nodup
import TreePointer.Proofs.Tree.Identified

/-!
# The same tree in two forests

Two documents of one outline live in tables of their own, where the nodes are numbered in any way. A
map from the nodes of the one to those of the other that keeps kinds, attributes and child lists
keeps all that follows from them: parents and ancestors, document order, and the children and
parents that addresses count.

* `Mirrored`: a tree and its image under such a map.
* `Mirrored.injective`: different nodes have different images.
* `Mirrored.identified`: nodes are identified with their images.
* `Mirrored.map_of_forall₂`: lists of nodes that are identified.
-/

namespace TreePointer.Forest

/-- The tree below `r` stands in `g` as well, its nodes under the names that `φ` gives them. What
they are called and what they hold may be different. -/
structure Mirrored (f g : Forest) (r : Node) (φ : Node → Node) : Prop where
  kind_eq : ∀ n, f.Within r n → g.kind (φ n) = f.kind n
  attributes_eq : ∀ n, f.Within r n → g.attributes (φ n) = f.attributes n
  children_eq : ∀ n, f.Within r n → g.children (φ n) = (f.children n).map φ

namespace Mirrored

variable {f g : Forest} {r n m p : Node} {φ : Node → Node} (h : Mirrored f g r φ)

include h

theorem sameNode (hn : f.Within r n) : SameNode f g n (φ n) :=
  ⟨h.kind_eq n hn, h.attributes_eq n hn⟩

variable (wf : f.WellFormed) (wf' : g.WellFormed)

include wf in
/-- The first element below a node. -/
theorem firstElement?_eq (hn : f.Within r n) :
    g.firstElement? (φ n) = (f.firstElement? n).map φ := by
  rw [firstElement?, h.children_eq n hn, List.find?_map, firstElement?]
  refine congrArg _ (List.find?_congr fun c hc => ?_)
  exact (h.sameNode (wf.within_child hn hc)).isElement_eq

include wf' in
theorem parent_child (hp : f.Within r p) (hn : n ∈ f.children p) : g.parent (φ n) = some (φ p) := by
  refine wf'.parent_of_mem ?_
  rw [h.children_eq p hp]
  exact List.mem_map_of_mem hn

include wf wf'

theorem has (hr' : g.Has (φ r)) (hn : f.Within r n) : g.Has (φ n) := by
  by_cases hroot : n = r
  · rwa [hroot]
  · obtain ⟨p, hp, hpr⟩ := wf.exists_parent hn hroot
    exact has_of_parent (h.parent_child wf' hpr (wf.mem_of_parent hp))

variable (htop : f.parent r = none) (htop' : g.parent (φ r) = none)

include htop htop'

theorem parent_eq (hn : f.Within r n) : g.parent (φ n) = (f.parent n).map φ := by
  by_cases hroot : n = r
  · rw [hroot, htop, htop', Option.map_none]
  · obtain ⟨p, hp, hpr⟩ := wf.exists_parent hn hroot
    rw [hp, Option.map_some, h.parent_child wf' hpr (wf.mem_of_parent hp)]

/-- **Different nodes have different images.** Their parents do, or they are different children of
one node. -/
theorem injective (hn : f.Within r n) (hm : f.Within r m) (e : φ n = φ m) : n = m := by
  induction n using wf.up_ends.induction generalizing m with
  | _ n ih =>
    have hparent := h.parent_eq wf wf' htop htop' hn
    rw [e, h.parent_eq wf wf' htop htop' hm] at hparent
    by_cases hroot : n = r
    · by_cases hroot' : m = r
      · rw [hroot, hroot']
      · obtain ⟨q, hq, -⟩ := wf.exists_parent hm hroot'
        rw [hroot, htop, hq] at hparent
        cases hparent
    · obtain ⟨p, hp, hpr⟩ := wf.exists_parent hn hroot
      rw [hp, Option.map_some, Option.map_eq_some_iff] at hparent
      obtain ⟨q, hq, hqp⟩ := hparent
      have hqr : f.Within r q := by
        refine wf.within_parent hm ?_ hq
        rintro rfl
        rw [htop] at hq
        cases hq
      obtain rfl : p = q := ih p hp hpr hqr hqp.symm
      have hnodup := wf'.nodup_children (φ p)
      rw [h.children_eq p hpr] at hnodup
      exact List.inj_on_of_nodup_map hnodup (wf.mem_of_parent hp) (wf.mem_of_parent hq) e

variable (hr : f.Has r) (hr' : g.Has (φ r))

include hr hr'

/-- **Nodes are identified with their images.** -/
theorem identified : f.Identified g fun n n' => n' = φ n ∧ f.Within r n where
  one_to_one := by
    constructor
    · rintro n n' m ⟨e, hn⟩ ⟨e', hm⟩
      exact h.injective wf wf' htop htop' hn hm (e.symm.trans e')
    · rintro n n' m' ⟨e, -⟩ ⟨e', -⟩
      exact e.trans e'.symm
  has := by
    rintro n _ ⟨rfl, hn⟩
    exact ⟨wf.has_of_within hr hn, h.has wf wf' hr' hn⟩
  same := by
    rintro n _ ⟨rfl, hn⟩
    exact h.sameNode hn
  parent := by
    rintro n _ ⟨rfl, hn⟩
    rw [h.parent_eq wf wf' htop htop' hn]
    by_cases hroot : n = r
    · rw [hroot, htop]
      exact .none
    · obtain ⟨p, hp, hpr⟩ := wf.exists_parent hn hroot
      rw [hp]
      exact .some ⟨rfl, hpr⟩
  children := by
    rintro n _ ⟨rfl, hn⟩
    rw [h.children_eq n hn]
    exact List.forall₂_map_right_iff.mpr
      (List.forall₂_same.mpr fun c hc => ⟨rfl, wf.within_child hn hc⟩)

omit h wf wf' htop htop' hr hr' in
/-- A list of nodes that are identified with others has their images for the other list. -/
theorem map_of_forall₂ {ns ns' : List Node}
    (hns : List.Forall₂ (fun n n' => n' = φ n ∧ f.Within r n) ns ns') : ns' = ns.map φ := by
  induction hns with
  | nil => rfl
  | cons hn _ ih => rw [hn.1, ih, List.map_cons]

end Mirrored

end TreePointer.Forest
