import TreePointer.Proofs.Tree.Check
import TreePointer.Proofs.Tree.Editing

/-!
# What an insertion leaves that fails

An insertion is refused when the receiver takes no children, when the node would come into its own
subtree, and when the reference is no child of the receiver. The first two are found before anything
is changed. The third is found when the node has already been taken from its parent, and it is not
put back. Nothing here needs links and child lists to agree.

* `insertBefore_error_iff`: when an insertion fails, with which fault, and what it leaves.
* `insertBefore_refused`: the links, child lists and contents of all nodes after a failed insertion.
-/

namespace TreePointer.Forest

variable {f g : Forest}

/-- A node that has no parent is left where it is, and any other one is not. -/
theorem detach_eq_iff {n : Node} : f.detach n = f ↔ f.parent n = none := by
  constructor
  · intro h
    rw [← h, parent_of_detach, if_pos rfl]
  · intro h
    rw [detach, h]

/-- The reference is looked for where the node itself no longer is, and found just if it was a child
before, unless it is the node. -/
theorem slot?_detach_eq_none_iff {p child : Node} {reference : Option Node}
    (h : reference ≠ some child) :
    (f.detach child).slot? p reference = none ↔
      ∃ r, reference = some r ∧ r ≠ child ∧ r ∉ f.children p := by
  cases reference with
  | none => simp [slot?]
  | some r =>
    have hr : r ≠ child := fun e => h (congrArg some e)
    have hmem : r ∈ (f.detach child).children p ↔ r ∈ f.children p := by
      rw [children_of_detach]
      split
      · rw [List.mem_filter, bne_iff_ne]
        exact and_iff_left hr
      · rfl
    rw [slot?, List.idxOf?_eq_none_iff, hmem]
    simp [hr]

/-- **When an insertion fails**, with which fault, and what it leaves. -/
theorem insertBefore_error_iff {p child : Node} {reference : Option Node} {e : Fault} :
    f.insertBefore p child reference = (.error e, g) ↔
      ((f.kind p).isContainer = false ∧ e = .argument .notContainer ∧ g = f) ∨
      ((f.kind p).isContainer = true ∧ f.Within child p ∧ e = .argument .ownSubtree ∧ g = f) ∨
      ((f.kind p).isContainer = true ∧ ¬ f.Within child p ∧
        (∃ r, reference = some r ∧ r ≠ child ∧ r ∉ f.children p) ∧
        e = .argument .notReferenceChild ∧ g = f.detach child) := by
  unfold insertBefore
  by_cases hk : (f.kind p).isContainer = true
  · rw [if_neg (not_not_intro hk)]
    by_cases hsub : f.Within child p
    · have hown : child = p ∨ f.isAncestor child p = true :=
        hsub.imp Eq.symm decide_eq_true
      rw [if_pos hown]
      simp [hk, hsub, eq_comm]
    · have hown : ¬ (child = p ∨ f.isAncestor child p = true) := fun h =>
        hsub (h.imp Eq.symm of_decide_eq_true)
      rw [if_neg hown]
      by_cases href : reference = some child
      · rw [if_pos href]
        simp [hk, hsub, href]
      · rw [if_neg href]
        have hslot := slot?_detach_eq_none_iff (f := f) (p := p) href
        cases hs : (f.detach child).slot? p reference with
        | some i =>
          have hfound := mt hslot.mpr (hs ▸ nofun)
          simp [hs, hk, hsub, hfound]
        | none =>
          simp only [hs, Prod.mk.injEq, Except.error.injEq]
          constructor
          · rintro ⟨rfl, rfl⟩
            exact Or.inr (Or.inr ⟨hk, hsub, hslot.mp hs, rfl, rfl⟩)
          · rintro (⟨h, -⟩ | ⟨-, h, -⟩ | ⟨-, -, -, rfl, rfl⟩)
            · rw [hk] at h
              cases h
            · exact absurd h hsub
            · exact ⟨rfl, rfl⟩
  · rw [if_pos hk]
    simp [hk, eq_comm]

/-- **What a failed insertion leaves.** No node is added, and no kind, name, value or attribute
changes. When the receiver takes no children, or the node would come into its own subtree, the
forest is the one before. When the reference is missing, the node has no parent any more and its old
parent does not list it, and every other link and child list is as before; so this failure changes
something just if the node had a parent. -/
theorem insertBefore_refused {p child : Node} {reference : Option Node} {e : Fault}
    (h : f.insertBefore p child reference = (.error e, g)) :
    g.size = f.size ∧ (∀ n, g.content n = f.content n) ∧
    (∀ n, g.parent n =
      if e = .argument .notReferenceChild ∧ n = child then none else f.parent n) ∧
    (∀ n, g.children n =
      if e = .argument .notReferenceChild ∧ f.parent child = some n
        then (f.children n).filter (· != child) else f.children n) ∧
    (g = f ↔ e ≠ .argument .notReferenceChild ∨ f.parent child = none) ∧
    (e = .argument .notReferenceChild ↔ (f.kind p).isContainer = true ∧ ¬ f.Within child p) := by
  rcases insertBefore_error_iff.mp h with ⟨hk, rfl, rfl⟩ | ⟨hk, hsub, rfl, rfl⟩ |
    ⟨hk, hsub, -, rfl, rfl⟩
  · simp [hk]
  · simp [hsub]
  · refine ⟨size_detach .., content_of_detach f child, fun n => ?_, fun n => ?_, ?_, ?_⟩
    · rw [parent_of_detach]
      simp only [true_and]
    · rw [children_of_detach]
      simp only [true_and]
    · rw [detach_eq_iff]
      simp
    · simp [hk, hsub]

/-- The tree `<r><a/><b/></r>`. -/
def twoLeaves : Forest := ⟨#[
  { Record.bare .element with name := some (.plain "r"), children := [⟨1⟩, ⟨2⟩] },
  { Record.bare .element with name := some (.plain "a"), parent := some ⟨0⟩ },
  { Record.bare .element with name := some (.plain "b"), parent := some ⟨0⟩ }]⟩

/-- When `b` is inserted into `a`, before `r`, it is taken from `r` and goes nowhere. -/
theorem insertBefore_refused_twoLeaves :
    twoLeaves.insertBefore ⟨1⟩ ⟨2⟩ (some ⟨0⟩)
      = (.error (.argument .notReferenceChild), twoLeaves.detach ⟨2⟩) ∧
    (twoLeaves.detach ⟨2⟩).parent ⟨2⟩ = none ∧
    (twoLeaves.detach ⟨2⟩).children ⟨0⟩ = [⟨1⟩] := by
  have h : twoLeaves.insertBefore ⟨1⟩ ⟨2⟩ (some ⟨0⟩)
      = (.error (.argument .notReferenceChild), twoLeaves.detach ⟨2⟩) := rfl
  obtain ⟨-, -, hparent, hchildren, -⟩ := insertBefore_refused h
  exact ⟨h, hparent ⟨2⟩, hchildren ⟨0⟩⟩

/-- A failed insertion may change links and child lists, also in a well-formed forest. -/
theorem not_insertBefore_refused_unchanged :
    ¬ ∀ (f g : Forest) (p child : Node) (reference : Option Node) (e : Fault),
      f.WellFormed → f.Has p → f.Has child → (∀ r, reference = some r → f.Has r) →
      f.insertBefore p child reference = (.error e, g) →
      ∀ n, g.parent n = f.parent n ∧ g.children n = f.children n ∧ g.content n = f.content n := by
  intro h
  have hlost := h twoLeaves (twoLeaves.detach ⟨2⟩) ⟨1⟩ ⟨2⟩ (some ⟨0⟩)
    (.argument .notReferenceChild) (by decide) (by decide) (by decide) (by decide) rfl ⟨2⟩
  revert hlost
  decide

end TreePointer.Forest
