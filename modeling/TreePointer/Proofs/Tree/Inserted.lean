import TreePointer.Proofs.Tree.Growing
import TreePointer.Proofs.Tree.Refused

/-!
# What an insertion does that succeeds

An insertion moves one node. It comes to stand among the children of the receiver, directly before
the reference or behind all others, and it is missing among the children of its old parent. When the
two are one and the same, its place is counted among the other children. Nothing else happens to any
node.

* `insertBefore_ok_iff`: an insertion that succeeds is a detachment and an attachment.
* `exists_insertBefore_iff`: when it succeeds.
* `slot?_split`: a slot parts a child list before the reference.
* `Moved`: a forest in which one node has moved.
* `WellFormed.insertBefore_moves`: a forest after an insertion that succeeds.
-/

namespace TreePointer.Forest

variable {f g : Forest} {p child : Node} {reference : Option Node}

/-! ## When an insertion succeeds -/

/-- **An insertion that succeeds** is a detachment and an attachment at the place of the
reference. -/
theorem insertBefore_ok_iff (href : reference ≠ some child) :
    f.insertBefore p child reference = (.ok (), g) ↔
      (f.kind p).isContainer = true ∧ ¬ f.Within child p ∧
        ∃ i, (f.detach child).slot? p reference = some i ∧
          g = (f.detach child).attach p child i := by
  constructor
  · intro h
    have hfails : ∀ e g', f.insertBefore p child reference ≠ (.error e, g') := by
      intro e g' h'
      rw [h] at h'
      cases h'
    have hk : (f.kind p).isContainer = true := by
      rw [← Bool.not_eq_false]
      exact fun hk => hfails _ _ (insertBefore_error_iff.mpr (.inl ⟨hk, rfl, rfl⟩))
    have hout : ¬ f.Within child p := fun hsub =>
      hfails _ _ (insertBefore_error_iff.mpr (.inr (.inl ⟨hk, hsub, rfl, rfl⟩)))
    cases hslot : (f.detach child).slot? p reference with
    | none =>
      have hmissing := (slot?_detach_eq_none_iff href).mp hslot
      exact absurd (insertBefore_error_iff.mpr (.inr (.inr ⟨hk, hout, hmissing, rfl, rfl⟩)))
        (hfails _ _)
    | some i =>
      rw [insertBefore_eq hk hout href hslot] at h
      exact ⟨hk, hout, i, rfl, (Prod.mk.inj h).2.symm⟩
  · rintro ⟨hk, hout, i, hslot, rfl⟩
    exact insertBefore_eq hk hout href hslot

/-- **When an insertion succeeds**: the receiver takes children, the node does not come into its own
subtree, and the reference is a child of the receiver if there is one. -/
theorem exists_insertBefore_iff (href : reference ≠ some child) :
    (∃ g, f.insertBefore p child reference = (.ok (), g)) ↔
      (f.kind p).isContainer = true ∧ ¬ f.Within child p ∧
        ∀ r, reference = some r → r ∈ f.children p := by
  have hslot : (∃ i, (f.detach child).slot? p reference = some i) ↔
      ∀ r, reference = some r → r ∈ f.children p := by
    rw [← Option.isSome_iff_exists, Option.isSome_iff_ne_none, ne_eq, slot?_detach_eq_none_iff href]
    constructor
    · intro hfound r hr
      exact Decidable.byContradiction fun hmem =>
        hfound ⟨r, hr, fun e => href (e ▸ hr), hmem⟩
    · rintro hmem ⟨r, hr, -, hnot⟩
      exact hnot (hmem r hr)
  rw [← hslot]
  constructor
  · rintro ⟨g, h⟩
    obtain ⟨hk, hout, i, hi, -⟩ := (insertBefore_ok_iff href).mp h
    exact ⟨hk, hout, i, hi⟩
  · rintro ⟨hk, hout, i, hi⟩
    exact ⟨_, (insertBefore_ok_iff href).mpr ⟨hk, hout, i, hi, rfl⟩⟩

/-! ## What becomes of the nodes -/

/-- A slot parts the child list before the reference, or behind all children. -/
theorem slot?_split {i : Nat} (h : f.slot? p reference = some i) :
    ∃ left right, f.children p = left ++ right ∧ left.length = i ∧ right.head? = reference := by
  refine ⟨(f.children p).take i, (f.children p).drop i, (List.take_append_drop _ _).symm,
    List.length_take_of_le (slot?_le h), ?_⟩
  rw [List.head?_drop]
  cases reference with
  | none =>
    obtain rfl : (f.children p).length = i := Option.some.inj h
    exact List.getElem?_eq_none (Nat.le_refl _)
  | some r =>
    obtain ⟨hlt, hr, -⟩ := List.idxOf?_eq_some_iff.mp h
    rw [List.getElem?_eq_getElem hlt]
    exact congrArg some hr

/-- The forest `g` is the forest `f` after a node has moved to the children of `p`, directly before
the reference or behind all others. -/
structure Moved (f g : Forest) (p child : Node) (reference : Option Node) : Prop where
  size_eq : g.size = f.size
  content_eq : ∀ n, g.content n = f.content n
  parent_child : g.parent child = some p
  parent_eq : ∀ n, n ≠ child → g.parent n = f.parent n
  children_receiver : ∃ left right, (f.children p).filter (· != child) = left ++ right ∧
    right.head? = reference ∧ g.children p = left ++ child :: right
  children_parent : ∀ q, f.parent child = some q → q ≠ p →
    g.children q = (f.children q).filter (· != child)
  children_child : g.children child = f.children child
  children_eq : ∀ n, n ≠ p → f.parent child ≠ some n → g.children n = f.children n

/-- **An insertion moves exactly one node.** After one that succeeds, the node is a child of the
receiver, directly before the reference or behind all others, its old parent has it no more, and
nothing else is changed. It succeeds exactly if the receiver takes children, does not lie in the
subtree of the node, and has the reference among its children. -/
theorem WellFormed.insertBefore_moves (wf : f.WellFormed) (hp : f.Has p) (hc : f.Has child)
    (href : reference ≠ some child) :
    (∀ g, f.insertBefore p child reference = (.ok (), g) → Moved f g p child reference) ∧
      ((∃ g, f.insertBefore p child reference = (.ok (), g)) ↔
        (f.kind p).isContainer = true ∧ ¬ f.Within child p ∧
          ∀ r, reference = some r → r ∈ f.children p) := by
  refine ⟨fun g h => ?_, exists_insertBefore_iff href⟩
  obtain ⟨-, hout, i, hslot, rfl⟩ := (insertBefore_ok_iff href).mp h
  have hp' : (f.detach child).Has p := (has_of_size_eq (size_detach ..)).mpr hp
  have hc' : (f.detach child).Has child := (has_of_size_eq (size_detach ..)).mpr hc
  have hne : child ≠ p := fun e => hout (e ▸ .refl f p)
  obtain ⟨left, right, hsplit, rfl, hright⟩ := slot?_split hslot
  have hchildren : ∀ n, n ≠ p → ((f.detach child).attach p child left.length).children n
      = (f.children n).filter (· != child) := by
    intro n hn
    rw [children_attach hp' hc', if_neg hn, children_detach wf]
  have hkept : ∀ n, n ≠ p → f.parent child ≠ some n →
      ((f.detach child).attach p child left.length).children n = f.children n := by
    intro n hn hparent
    rw [hchildren n hn, filter_bne_of_not_mem]
    rwa [wf.mem_children_iff]
  exact {
    size_eq := (size_attach ..).trans (size_detach ..)
    content_eq := fun n => by rw [content_attach hp' hc', content_of_detach]
    parent_child := by rw [parent_attach hp' hc', if_pos rfl]
    parent_eq := fun n hn => by
      rw [parent_attach hp' hc', if_neg hn, parent_of_detach, if_neg hn]
    children_receiver := by
      refine ⟨left, right, (children_detach wf child p).symm.trans hsplit, hright, ?_⟩
      rw [children_attach hp' hc', if_pos rfl, hsplit, insertIdx_append]
    children_parent := fun q _ hq => hchildren q hq
    children_child := hkept child hne fun h => wf.ne_of_mem_children (wf.mem_of_parent h) rfl
    children_eq := hkept }

/-- Of two children the second is inserted before the first. -/
theorem insertBefore_moves_twoLeaves :
    let g := (twoLeaves.detach ⟨2⟩).attach ⟨0⟩ ⟨2⟩ 0
    twoLeaves.insertBefore ⟨0⟩ ⟨2⟩ (some ⟨1⟩) = (.ok (), g) ∧
      Moved twoLeaves g ⟨0⟩ ⟨2⟩ (some ⟨1⟩) ∧ g.children ⟨0⟩ = [⟨2⟩, ⟨1⟩] := by
  have h : twoLeaves.insertBefore ⟨0⟩ ⟨2⟩ (some ⟨1⟩)
      = (.ok (), (twoLeaves.detach ⟨2⟩).attach ⟨0⟩ ⟨2⟩ 0) := rfl
  have hp : twoLeaves.Has ⟨0⟩ := by decide
  have hc : twoLeaves.Has ⟨2⟩ := by decide
  have href : some ⟨1⟩ ≠ some (⟨2⟩ : Node) := by decide
  obtain ⟨hmoves, -⟩ := WellFormed.insertBefore_moves (by decide) hp hc href
  exact ⟨h, hmoves _ h, rfl⟩

end TreePointer.Forest
