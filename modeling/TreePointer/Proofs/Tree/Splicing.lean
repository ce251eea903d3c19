import Mathlib.Data.List.Flatten
import TreePointer.Proofs.Tree.Check
import TreePointer.Proofs.Tree.Order
import TreePointer.Proofs.Tree.Spliced

/-!
# Spliced children are the nodes with that effective parent

Children are spliced by an iterator that goes down into ignored elements and keeps on a stack what
is left of each child list; a parent is looked for by climbing past ignored elements. The two go
opposite ways over the same wrappers. From any stack the iterator gives each node on it, or what the
node shows in its place. So it ends with the spliced children, which are a part of the list of the
tree, and these are the nodes from which climbing leads back.

* `SpliceRun`: what the iterator gives, without a bound on its steps.
* `WellFormed.spliceRun_stack`: what it gives from any stack.
* `WellFormed.mem_spliced_iff`, `WellFormed.spliced_sublist`: which nodes these are, in what order.
* `WellFormed.spliced_adjoint`: these together.
-/

namespace TreePointer.Forest

variable {f : Forest}

/-- What stands for a node in the list of children of the node above it: the node, or in the place
of one that is ignored its own spliced children. -/
def inPlace (f : Forest) (c : Node) : List Node := if f.isIgnored c then f.spliced c else [c]

/-- What the iterator gives that has these lists on its stack, what is left of the innermost child
list first. -/
inductive SpliceRun (f : Forest) : List (List Node) → List Node → Prop
  | finished : SpliceRun f [] []
  | back {stack : List (List Node)} {given : List Node} (rest : SpliceRun f stack given) :
    SpliceRun f ([] :: stack) given
  | into {c : Node} {cs : List Node} {stack : List (List Node)} {given : List Node}
    (h : f.isIgnored c = true) (rest : SpliceRun f (f.children c :: cs :: stack) given) :
    SpliceRun f ((c :: cs) :: stack) given
  | give {c : Node} {cs : List Node} {stack : List (List Node)} {given : List Node}
    (h : f.isIgnored c = false) (rest : SpliceRun f (cs :: stack) given) :
    SpliceRun f ((c :: cs) :: stack) (c :: given)

/-- If each node of a list is read as what stands in its place, the list is read to its end as all
of that. -/
theorem SpliceRun.list {cs : List Node} (h : ∀ c ∈ cs, ∀ {ds stack given},
      SpliceRun f (ds :: stack) given → SpliceRun f ((c :: ds) :: stack) (f.inPlace c ++ given))
    {stack : List (List Node)} {given : List Node} (rest : SpliceRun f stack given) :
    SpliceRun f (cs :: stack) (cs.flatMap f.inPlace ++ given) := by
  induction cs with
  | nil => exact .back rest
  | cons c cs ih =>
    rw [List.flatMap_cons, List.append_assoc]
    exact h c List.mem_cons_self (ih fun d hd => h d (List.mem_cons_of_mem _ hd))

/-- What is spliced into a list of children has the parent that the node itself would have. -/
theorem effectiveParent?_of_mem_spliceWithin (wf : f.WellFormed) {k : Nat} {p c : Node}
    (h : c ∈ f.spliceWithin f.isIgnored k p) :
    f.effectiveParent? c = if f.isIgnored p then f.effectiveParent? p else some p := by
  induction k generalizing p with
  | zero => cases h
  | succ k ih =>
    rw [spliceWithin, List.mem_flatMap] at h
    obtain ⟨d, hd, hc⟩ := h
    have hup := wf.effectiveParent?_of_parent (wf.parent_of_mem hd)
    split at hc
    · next hi => rw [ih hc, if_pos hi, hup]
    · rw [List.mem_singleton.mp hc, hup]

namespace WellFormed

variable (wf : f.WellFormed)

include wf

theorem spliced_eq_flatMap (p : Node) : f.spliced p = (f.children p).flatMap f.inPlace := by
  by_cases hp : f.Has p
  · exact wf.spliced_eq hp
  · rw [spliced, splice, children_of_not_has hp]
    cases f.size with
    | zero => rfl
    | succ k => rw [spliceWithin, children_of_not_has hp]; rfl

/-! ## The iterator -/

/-- The iterator reads a node as what stands in its place. -/
theorem spliceRun_node (c : Node) {cs : List Node} {stack : List (List Node)} {given : List Node}
    (rest : SpliceRun f (cs :: stack) given) :
    SpliceRun f ((c :: cs) :: stack) (f.inPlace c ++ given) := by
  induction c using wf.induction_down generalizing cs stack given with
  | step c ih =>
    rw [inPlace]
    cases hi : f.isIgnored c with
    | true =>
      rw [if_pos rfl, wf.spliced_eq_flatMap]
      exact .into hi (.list (fun d hd => ih d hd) rest)
    | false => exact .give hi rest

/-- **From any stack** the iterator gives what stands in the place of each node that is on it. -/
theorem spliceRun_stack (stack : List (List Node)) :
    SpliceRun f stack (stack.flatMap fun cs => cs.flatMap f.inPlace) := by
  induction stack with
  | nil => exact .finished
  | cons cs stack ih =>
    rw [List.flatMap_cons]
    exact .list (fun c _ => wf.spliceRun_node c) ih

theorem spliceRun_children (p : Node) : SpliceRun f [f.children p] (f.spliced p) := by
  have h := wf.spliceRun_stack [f.children p]
  rwa [List.flatMap_singleton, ← wf.spliced_eq_flatMap] at h

/-! ## The spliced children -/

/-- The spliced children of a node that is not ignored are the nodes with this effective parent that
are not ignored. -/
theorem mem_spliced_iff {p c : Node} (hp : f.isIgnored p = false) :
    c ∈ f.spliced p ↔ f.isIgnored c = false ∧ f.effectiveParent? c = some p := by
  constructor
  · intro h
    refine ⟨not_isIgnored_of_mem_spliced h, ?_⟩
    rw [effectiveParent?_of_mem_spliceWithin wf h, if_neg (Bool.eq_false_iff.mp hp)]
  · exact fun ⟨hi, h⟩ => wf.mem_spliced hi h

/-- Splicing leaves nodes of a subtree out and keeps the others in their order. -/
theorem spliced_sublist {p : Node} (hp : f.Has p) : (f.spliced p).Sublist (f.preorder p) := by
  induction p using wf.induction_down with
  | step p ih =>
    rw [wf.spliced_eq_flatMap, wf.preorder_eq hp]
    refine .cons p (.flatMap_right _ fun c hc => ?_)
    have hhas := wf.has_child hc
    rw [inPlace]
    split
    · exact ih c hc hhas
    · rw [wf.preorder_eq hhas, List.singleton_sublist]
      exact List.mem_cons_self

theorem pairwise_spliced (p : Node) :
    (f.spliced p).Pairwise fun a b => f.compareOrder a b = .ok .lt := by
  by_cases hp : f.Has p
  · exact (wf.pairwise_preorder hp).sublist (wf.spliced_sublist hp)
  · rw [wf.spliced_eq_flatMap, children_of_not_has hp]
    exact .nil

theorem nodup_spliced (p : Node) : (f.spliced p).Nodup :=
  nodup_of_pairwise compareOrder_asymm (wf.pairwise_spliced p)

/-- **Splicing and effective parents belong together.** From the child list of a node that is not
ignored the iterator gives the spliced children and ends. These are, each once and in document
order, the nodes that are not ignored themselves and have the node for their effective parent,
however deep in ignored elements they lie. -/
theorem spliced_adjoint {p : Node} (hp : f.isIgnored p = false) :
    SpliceRun f [f.children p] (f.spliced p) ∧
    (f.spliced p).Nodup ∧
    ((f.spliced p).Pairwise fun a b => f.compareOrder a b = .ok .lt) ∧
    ∀ c, c ∈ f.spliced p ↔ f.isIgnored c = false ∧ f.effectiveParent? c = some p :=
  ⟨wf.spliceRun_children p, wf.nodup_spliced p, wf.pairwise_spliced p,
    fun _ => wf.mem_spliced_iff hp⟩

end WellFormed

/-- The tree `<r>a<m>b<n>c</n></m><p><m>d</m></p></r>`, where `m` and `n` are ignored. -/
def wrapped : Forest := ⟨#[
  { Record.bare .element with name := some (.plain "r"), children := [⟨1⟩, ⟨2⟩, ⟨6⟩] },
  { Record.bare .text with value := some "a", parent := some ⟨0⟩ },
  { Record.bare .element with
    name := some (.plain "m"), parent := some ⟨0⟩, children := [⟨3⟩, ⟨4⟩]
    attributes := [⟨⟨none, Mark.ignore.attributeName, some Mark.uri⟩, Mark.set⟩] },
  { Record.bare .text with value := some "b", parent := some ⟨2⟩ },
  { Record.bare .element with
    name := some (.plain "n"), parent := some ⟨2⟩, children := [⟨5⟩]
    attributes := [⟨⟨none, Mark.ignore.attributeName, some Mark.uri⟩, Mark.set⟩] },
  { Record.bare .text with value := some "c", parent := some ⟨4⟩ },
  { Record.bare .element with name := some (.plain "p"), parent := some ⟨0⟩, children := [⟨7⟩] },
  { Record.bare .element with
    name := some (.plain "m"), parent := some ⟨6⟩, children := [⟨8⟩]
    attributes := [⟨⟨none, Mark.ignore.attributeName, some Mark.uri⟩, Mark.set⟩] },
  { Record.bare .text with value := some "d", parent := some ⟨7⟩ }]⟩

/-- The `c` lies two wrappers deep in `r`; the `d` has the parent `p`. -/
theorem spliced_adjoint_wrapped :
    wrapped.WellFormed ∧ wrapped.isIgnored ⟨0⟩ = false ∧
      SpliceRun wrapped [[⟨1⟩, ⟨2⟩, ⟨6⟩]] [⟨1⟩, ⟨3⟩, ⟨5⟩, ⟨6⟩] ∧
      wrapped.effectiveParent? ⟨5⟩ = some ⟨0⟩ ∧ wrapped.effectiveParent? ⟨8⟩ ≠ some ⟨0⟩ := by
  have wf : wrapped.WellFormed := by decide
  have hr : wrapped.isIgnored ⟨0⟩ = false := by decide
  obtain ⟨hrun, -, -, hmem⟩ := wf.spliced_adjoint hr
  have hlist : wrapped.spliced ⟨0⟩ = [⟨1⟩, ⟨3⟩, ⟨5⟩, ⟨6⟩] := by decide
  have hd : wrapped.isIgnored ⟨8⟩ = false := by decide
  rw [hlist] at hrun hmem
  exact ⟨wf, hr, hrun, ((hmem ⟨5⟩).mp (by decide)).2,
    fun h => absurd ((hmem ⟨8⟩).mpr ⟨hd, h⟩) (by decide)⟩

end TreePointer.Forest
