import TreePointer.Proofs.Tree.Descent

/-!
# Checking that a forest is well formed

Outside the table a node has no links at all, so that links and child lists of a forest can be
compared node by node. That going up ends is checked by the number of ancestors, which is larger
below than above.

* `isWellFormed_iff`: the check accepts the well-formed forests and no others.
-/

namespace TreePointer.Forest

variable {f : Forest}

/-- Whether the links of one node agree with the child lists, and going up gets nearer to the top. -/
def linksUp (f : Forest) (n : Node) : Bool :=
  (f.parent n).all fun p => decide (f.Has p) && decide (n ∈ f.children p) &&
    decide ((f.ancestors p).length < (f.ancestors n).length)

/-- Whether the child list of one node agrees with the links. -/
def linksDown (f : Forest) (n : Node) : Bool :=
  (f.children n).all (fun c => f.parent c == some n && (f.kind n).isContainer) &&
    decide (f.children n).Nodup

/-- Whether links and child lists of a forest agree and form trees. -/
def isWellFormed (f : Forest) : Bool :=
  (List.range f.size).all fun i => f.linksUp ⟨i⟩ && f.linksDown ⟨i⟩

/-- The check of every node, whether the table has it or not. -/
theorem links_of_isWellFormed (h : f.isWellFormed = true) (n : Node) :
    f.linksUp n = true ∧ f.linksDown n = true := by
  by_cases hn : f.Has n
  · have hboth := List.all_eq_true.mp h n.index (List.mem_range.mpr hn)
    exact Bool.and_eq_true_iff.mp hboth
  · rw [linksUp, parent_of_not_has hn, linksDown, children_of_not_has hn]
    exact ⟨rfl, rfl⟩

theorem linksUp_iff {n : Node} : f.linksUp n = true ↔ ∀ p, f.parent n = some p →
    f.Has p ∧ n ∈ f.children p ∧ (f.ancestors p).length < (f.ancestors n).length := by
  unfold linksUp
  cases f.parent n with
  | none => simp
  | some p => simp [and_assoc]

theorem linksDown_iff {n : Node} : f.linksDown n = true ↔
    (∀ c ∈ f.children n, f.parent c = some n ∧ (f.kind n).isContainer = true) ∧
      (f.children n).Nodup := by
  simp [linksDown]

/-- **The check decides** whether a forest is well formed. -/
theorem isWellFormed_iff : f.isWellFormed = true ↔ f.WellFormed := by
  constructor
  · intro h
    have hup := fun n => linksUp_iff.mp (links_of_isWellFormed h n).1
    have hdown := fun n => linksDown_iff.mp (links_of_isWellFormed h n).2
    refine ⟨fun n p hp => (hup n p hp).1, fun p c => ?_, fun p => (hdown p).2, ?_,
      fun p c hc => ((hdown p).1 c hc).2⟩
    · exact ⟨fun hc => ((hdown p).1 c hc).1, fun hp => (hup c p hp).2.1⟩
    · -- the number of ancestors falls on the way up
      exact Subrelation.wf (fun {p n} hp => (hup n p hp).2.2)
        (measure fun n => (f.ancestors n).length).wf
  · intro wf
    refine List.all_eq_true.mpr fun i _ => Bool.and_eq_true_iff.mpr ⟨?_, ?_⟩
    · refine linksUp_iff.mpr fun p hp => ⟨wf.has_parent _ p hp, wf.mem_of_parent hp, ?_⟩
      rw [wf.ancestors_of_parent hp, List.length_cons]
      exact Nat.lt_succ_self _
    · exact linksDown_iff.mpr ⟨fun c hc => ⟨wf.parent_of_mem hc, wf.container_of_mem _ c hc⟩,
        wf.nodup_children _⟩

instance (f : Forest) : Decidable f.WellFormed :=
  decidable_of_iff (f.isWellFormed = true) isWellFormed_iff

/-- What holds of the nodes on the list of a subtree holds of all that is below its top. -/
theorem WellFormed.forall_within {r : Node} {P : Node → Prop} (wf : f.WellFormed) (hr : f.Has r)
    (h : ∀ n ∈ f.preorder r, P n) (n : Node) (hn : f.Within r n) : P n :=
  h n ((wf.mem_preorder_iff hr).mpr hn)

end TreePointer.Forest
