import TreePointer.Document
import TreePointer.Neighbour
import TreePointer.Proofs.Related
import TreePointer.Proofs.Tree.Spliced
import TreePointer.Proofs.Tree.Walk

/-!
# Trees that are the same

Two trees are the same if their nodes can be identified, one with one, so that nodes that are
identified are of one kind, have the same attributes, and have parents and children that are
identified. What is found in one of the trees, from a node on, is then identified with what is found
in the other from the other node.

* `Identified`: how the nodes of two forests are identified.
* `Identified.ancestors`, `Identified.preorder`, `Identified.spliced`: what is above and below.
* `Identified.compareOrder_eq`: the document order.
* `Copied.nextVisible`, `Copied.previousVisible`, `Copied.nextUnmarked`: neighbours, where the nodes
  hold the same text as well.
-/

namespace TreePointer.Forest

/-! ## Nodes that are alike -/

/-- The nodes are of one kind and have the same attributes. -/
structure SameNode (f g : Forest) (n n' : Node) : Prop where
  kind_eq : g.kind n' = f.kind n
  attributes_eq : g.attributes n' = f.attributes n

namespace SameNode

variable {f g : Forest} {n n' : Node} (h : SameNode f g n n')

include h

theorem isElement_eq : g.isElement n' = f.isElement n := by
  rw [isElement, h.kind_eq, isElement]

theorem isText_eq : g.isText n' = f.isText n := by
  rw [isText, h.kind_eq, isText]

theorem attribute?_eq (uri : Option String) (localName : String) :
    g.attribute? n' uri localName = f.attribute? n uri localName := by
  rw [attribute?, h.attributes_eq, attribute?]

theorem hasMark_eq (mark : Mark) : g.hasMark mark n' = f.hasMark mark n := by
  rw [hasMark, h.isElement_eq, h.attribute?_eq, hasMark]

theorem isIgnored_eq : g.isIgnored n' = f.isIgnored n :=
  h.hasMark_eq .ignore

theorem isMarked_eq : g.isMarked n' = f.isMarked n := by
  rw [isMarked, h.isIgnored_eq, isHidden, h.hasMark_eq, isMarked, isHidden]

end SameNode

/-! ## Trees that are the same -/

/-- Nodes of two forests that are identified are in trees that are the same. What they are called
and what text they hold may be different. -/
structure Identified (f g : Forest) (M : Node → Node → Prop) : Prop where
  one_to_one : Relator.BiUnique M
  has : ∀ n n', M n n' → f.Has n ∧ g.Has n'
  same : ∀ n n', M n n' → SameNode f g n n'
  parent : ∀ n n', M n n' → Option.Rel M (f.parent n) (g.parent n')
  children : ∀ n n', M n n' → List.Forall₂ M (f.children n) (g.children n')

namespace Identified

variable {f g : Forest} {M : Node → Node → Prop} {n n' m m' p p' : Node} (h : Identified f g M)

include h

theorem eq_iff (hn : M n n') (hm : M m m') : n' = m' ↔ n = m :=
  (Relator.rel_eq h.one_to_one hn hm).symm

/-- Either both nodes are on top of their trees, or neither is. -/
theorem parent_cases (hn : M n n') : (f.parent n = none ∧ g.parent n' = none) ∨
    ∃ p p', f.parent n = some p ∧ g.parent n' = some p' ∧ M p p' :=
  option_rel_cases (h.parent n n' hn)

theorem childAt (hn : M n n') (i : Nat) : Option.Rel M (f.childAt? n i) (g.childAt? n' i) :=
  forall₂_getElem? (h.children n n' hn) i

theorem firstElement (hn : M n n') : Option.Rel M (f.firstElement? n) (g.firstElement? n') :=
  forall₂_find? (h.children n n' hn) fun _ _ hc => (h.same _ _ hc).isElement_eq

theorem childIndex?_eq (hn : M n n') : g.childIndex? n' = f.childIndex? n := by
  rcases h.parent_cases hn with ⟨hp, hp'⟩ | ⟨p, p', hp, hp', hpp⟩
  · simp only [childIndex?, hp, hp', Option.bind_eq_bind, Option.bind_none]
  · simp only [childIndex?, hp, hp', Option.bind_eq_bind, Option.bind_some]
    exact forall₂_idxOf? h.one_to_one (h.children p p' hpp) hn

theorem nextSibling (hn : M n n') : Option.Rel M (f.nextSibling? n) (g.nextSibling? n') := by
  rw [nextSibling?, nextSibling?, h.childIndex?_eq hn]
  cases f.childIndex? n with
  | none => exact .none
  | some i =>
    simp only [Option.bind_eq_bind, Option.bind_some]
    exact option_rel_bind (h.parent n n' hn) fun p p' hp => h.childAt hp (i + 1)

theorem previousSibling (hn : M n n') :
    Option.Rel M (f.previousSibling? n) (g.previousSibling? n') := by
  rw [previousSibling?, previousSibling?, h.childIndex?_eq hn]
  rcases f.childIndex? n with _ | _ | i
  · exact .none
  · exact .none
  · simp only [Option.bind_eq_bind, Option.bind_some]
    exact option_rel_bind (h.parent n n' hn) fun p p' hp => h.childAt hp i

theorem isShown_eq (hn : M n n') : g.isShown n' = f.isShown n := by
  rw [isShown, isShown, (h.same _ _ hn).isText_eq]
  rcases h.parent_cases hn with ⟨hp, hp'⟩ | ⟨p, p', hp, hp', hpp⟩
  · rw [hp, hp']
    rfl
  · rw [hp, hp', Option.any_some, Option.any_some, (h.same _ _ hpp).isMarked_eq]

variable (wf : f.WellFormed) (wf' : g.WellFormed)

/-! ## Upwards -/

section Upwards

include wf wf'

theorem ancestors (hn : M n n') : List.Forall₂ M (f.ancestors n) (g.ancestors n') := by
  induction n using wf.up_ends.induction generalizing n' with
  | _ n ih =>
    rcases h.parent_cases hn with ⟨hp, hp'⟩ | ⟨p, p', hp, hp', hpp⟩
    · rw [ancestors_of_top hp, ancestors_of_top hp']
      exact .nil
    · rw [wf.ancestors_of_parent hp, wf'.ancestors_of_parent hp']
      exact .cons hpp (ih p hp hpp)

theorem within_iff (hm : M m m') (hn : M n n') : g.Within m' n' ↔ f.Within m n :=
  or_congr (h.eq_iff hn hm) (List.rel_mem h.one_to_one hm (h.ancestors wf wf' hn)).symm

theorem isAncestor_eq (hm : M m m') (hn : M n n') : g.isAncestor m' n' = f.isAncestor m n := by
  rw [isAncestor, isAncestor, decide_eq_decide]
  exact (List.rel_mem h.one_to_one hm (h.ancestors wf wf' hn)).symm

theorem chain (hn : M n n') : List.Forall₂ M (f.chain n) (g.chain n') :=
  .cons hn (h.ancestors wf wf' hn)

theorem path (hn : M n n') : List.Forall₂ M (f.path n) (g.path n') :=
  List.forall₂_reverse_iff.mpr (h.chain wf wf' hn)

/-- What is found upwards corresponds. -/
theorem findUp {α β : Type} {S : α → β → Prop} {a : Node → Option α} {b : Node → Option β}
    (hab : ∀ n n', M n n' → Option.Rel S (a n) (b n')) (hn : M n n') :
    Option.Rel S (f.findUp? a n) (g.findUp? b n') := by
  rw [findUp?_eq, findUp?_eq]
  exact forall₂_findSome? (h.ancestors wf wf' hn) hab

theorem following (hn : M n n') : Option.Rel M (f.following? n) (g.following? n') :=
  option_rel_orElse (h.nextSibling hn) (h.findUp wf wf' (fun _ _ hm => h.nextSibling hm) hn)

theorem preceding (hn : M n n') : Option.Rel M (f.preceding? n) (g.preceding? n') :=
  option_rel_orElse (h.previousSibling hn) (h.findUp wf wf' (fun _ _ hm => h.previousSibling hm) hn)

theorem effectiveAncestors (hn : M n n') :
    List.Forall₂ M (f.effectiveAncestors n) (g.effectiveAncestors n') :=
  forall₂_filter (h.ancestors wf wf' hn) fun _ _ ha => congrArg (!·) (h.same _ _ ha).isIgnored_eq

theorem effectiveParent (hn : M n n') :
    Option.Rel M (f.effectiveParent? n) (g.effectiveParent? n') := by
  rw [effectiveParent?_eq, effectiveParent?_eq]
  exact forall₂_head? (h.effectiveAncestors wf wf' hn)

/-- Every node is below the top of its tree. -/
theorem exists_top (hn : M n n') : ∃ r r', M r r' ∧ f.parent r = none ∧ g.parent r' = none ∧
    f.Within r n ∧ g.Within r' n' := by
  induction n using wf.up_ends.induction generalizing n' with
  | _ n ih =>
    rcases h.parent_cases hn with ⟨hp, hp'⟩ | ⟨p, p', hp, hp', hpp⟩
    · exact ⟨n, n', hn, hp, hp', .refl f n, .refl g n'⟩
    · obtain ⟨r, r', hr, htop, htop', hw, hw'⟩ := ih p hp hpp
      exact ⟨r, r', hr, htop, htop', wf.within_child hw (wf.mem_of_parent hp),
        wf'.within_child hw' (wf'.mem_of_parent hp')⟩

/-! ## The document order -/

theorem childTowards (hm : M m m') (hn : M n n') :
    Option.Rel M (f.childTowards? m n) (g.childTowards? m' n') := by
  refine forall₂_find? (h.chain wf wf' hn) fun c c' hc => ?_
  rcases h.parent_cases hc with ⟨hp, hp'⟩ | ⟨p, p', hp, hp', hpp⟩
  · rw [hp, hp']
    rfl
  · rw [hp, hp', Bool.eq_iff_iff, beq_iff_eq, beq_iff_eq, Option.some.injEq, Option.some.injEq]
    exact h.eq_iff hpp hm

omit wf wf' in
/-- Where two paths part, they do so at the same children. -/
theorem comparePaths_eq {above above' : Option Node} (ha : Option.Rel M above above')
    {xs ys xs' ys' : List Node} (hx : List.Forall₂ M xs xs') (hy : List.Forall₂ M ys ys') :
    g.comparePaths above' xs' ys' = f.comparePaths above xs ys := by
  induction hx generalizing above above' ys ys' with
  | nil => cases hy <;> rfl
  | @cons x x' xs xs' hxx _ ih =>
    cases hy with
    | nil => rfl
    | @cons y y' ys ys' hyy hys =>
      by_cases e : x = y
      · simp only [comparePaths, if_pos e, if_pos ((h.eq_iff hxx hyy).mpr e)]
        exact ih (.some hxx) hys
      · simp only [comparePaths, if_neg e, if_neg (mt (h.eq_iff hxx hyy).mp e)]
        cases ha with
        | none => rfl
        | some hp =>
          have hchildren := h.children _ _ hp
          simp only [forall₂_idxOf? h.one_to_one hchildren hxx,
            forall₂_idxOf? h.one_to_one hchildren hyy]

/-- **The document order** is the same. -/
theorem compareOrder_eq (hm : M m m') (hn : M n n') :
    g.compareOrder m' n' = f.compareOrder m n :=
  h.comparePaths_eq .none (h.path wf wf' hm) (h.path wf wf' hn)

end Upwards

/-! ## Downwards -/

section Downwards

include wf wf'

/-- **The subtrees** are the same. -/
theorem preorder (hn : M n n') : List.Forall₂ M (f.preorder n) (g.preorder n') := by
  induction n using wf.induction_down generalizing n' with
  | step n ih =>
    obtain ⟨hhas, hhas'⟩ := h.has n n' hn
    rw [wf.preorder_eq hhas, wf'.preorder_eq hhas']
    have hchildren := (List.forall₂_and_left _ _).mpr ⟨fun _ hc => hc, h.children n n' hn⟩
    exact .cons hn (List.rel_flatMap hchildren fun c c' ⟨hmem, hc⟩ => ih c hmem hc)

/-- **The element with an id** is the same in both documents. -/
theorem elementById {d d' : Document} (hroot : M d.root d'.root) (id : String) :
    Option.Rel M (d.elementById? f id) (d'.elementById? g id) := by
  unfold Document.elementById?
  split
  · exact .none
  · rw [findBelow?_eq, findBelow?_eq]
    refine forall₂_find? (h.preorder wf wf' hroot) fun m m' hm => ?_
    rw [(h.same m m' hm).isElement_eq, (h.same m m' hm).attribute?_eq]

/-- **The children that addresses count** are the same. -/
theorem spliced (hn : M n n') : List.Forall₂ M (f.spliced n) (g.spliced n') := by
  induction n using wf.induction_down generalizing n' with
  | step n ih =>
    obtain ⟨hhas, hhas'⟩ := h.has n n' hn
    rw [wf.spliced_eq hhas, wf'.spliced_eq hhas']
    have hchildren := (List.forall₂_and_left _ _).mpr ⟨fun _ hc => hc, h.children n n' hn⟩
    refine List.rel_flatMap hchildren fun c c' ⟨hmem, hc⟩ => ?_
    rw [(h.same _ _ hc).isIgnored_eq]
    split
    · exact ih c hmem hc
    · exact .cons hc .nil

/-- **The number of a child** is the same. -/
theorem positionOf?_eq {accept accept' : Node → Bool} (hp : M p p') (hn : M n n')
    (haccept : ∀ c c', M c c' → accept' c' = accept c) :
    g.positionOf? p' n' accept' = f.positionOf? p n accept := by
  have hrun : StopsAlike Eq Eq ((f.spliced p).foldlM (positionStep accept n) 0)
      ((g.spliced p').foldlM (positionStep accept' n') 0) := by
    refine .foldlM (h.spliced wf wf' hp) (fun s t c c' hst hc => ?_) rfl
    subst hst
    rw [positionStep, positionStep, haccept c c' hc]
    by_cases e : c = n
    · rw [if_pos e, if_pos ((h.eq_iff hc hn).mpr e)]
      exact .stop rfl
    · rw [if_neg e, if_neg (mt (h.eq_iff hc hn).mp e)]
      exact .go rfl
  rw [positionOf?, positionOf?, visitSpliced_eq, visitSpliced_eq]
  generalize (f.spliced p).foldlM (positionStep accept n) 0 = a,
    (g.spliced p').foldlM (positionStep accept' n') 0 = b at hrun
  cases hrun with
  | stop h => exact h.symm
  | go _ => rfl

/-- The list of the tree is the same on both sides of a node. -/
theorem exists_sides (hn : M n n') : ∃ r r' before before' after after', M r r' ∧
    f.parent r = none ∧ g.parent r' = none ∧ f.preorder r = before ++ n :: after ∧
    g.preorder r' = before' ++ n' :: after' ∧ List.Forall₂ M before before' ∧
    List.Forall₂ M after after' := by
  obtain ⟨r, r', hr, htop, htop', hw, -⟩ := h.exists_top wf wf' hn
  obtain ⟨before, after, e⟩ :=
    List.append_of_mem ((wf.mem_preorder_iff (h.has r r' hr).1).mpr hw)
  have hall := h.preorder wf wf' hr
  rw [e] at hall
  obtain ⟨before', m, after', e', hbefore, hm, hafter⟩ := forall₂_append_cons hall
  obtain rfl : m = n' := (h.eq_iff hm hn).mpr rfl
  exact ⟨r, r', before, before', after, after', hr, htop, htop', e, e', hbefore, hafter⟩

end Downwards

end Identified

/-! ## Texts -/

/-- Nodes that are identified hold the same text as well. Only their names may be different. -/
structure Copied (f g : Forest) (M : Node → Node → Prop) : Prop extends Identified f g M where
  value_eq : ∀ n n', M n n' → g.value n' = f.value n

namespace Copied

variable {f g : Forest} {M : Node → Node → Prop} {n n' : Node} (h : Copied f g M)

include h

theorem characters_eq (hn : M n n') : g.characters n' = f.characters n := by
  rw [characters, h.value_eq n n' hn, characters]

theorem length_eq (hn : M n n') : g.length n' = f.length n := by
  rw [length, length, (h.same n n' hn).kind_eq, (h.children n n' hn).length_eq, h.characters_eq hn]

theorem isVisible_eq (hn : M n n') : g.isVisible n' = f.isVisible n := by
  rw [isVisible, h.isShown_eq hn, h.length_eq hn, isVisible]

theorem isBlankText_eq (hn : M n n') : g.isBlankText n' = f.isBlankText n := by
  rw [isBlankText, (h.same _ _ hn).isText_eq, h.characters_eq hn, isBlankText]

variable (wf : f.WellFormed) (wf' : g.WellFormed)

include wf wf'

/-- **The visible text** after a node is the same. -/
theorem nextVisible (hn : M n n') : Option.Rel M (f.nextVisible? n)
    (g.nextVisible? n') := by
  obtain ⟨r, r', before, before', after, after', hr, htop, htop', e, e', -, hafter⟩ :=
    h.exists_sides wf wf' hn
  obtain ⟨hhas, hhas'⟩ := h.has r r' hr
  rw [wf.nextVisible?_eq hhas htop e, wf'.nextVisible?_eq hhas' htop' e']
  exact forall₂_find? hafter fun _ _ hm => h.isVisible_eq hm

/-- **The visible text** before a node is the same. -/
theorem previousVisible (hn : M n n') :
    Option.Rel M (f.previousVisible? n) (g.previousVisible? n') := by
  obtain ⟨r, r', before, before', after, after', hr, htop, htop', e, e', hbefore, -⟩ :=
    h.exists_sides wf wf' hn
  obtain ⟨hhas, hhas'⟩ := h.has r r' hr
  rw [wf.previousVisible?_eq hhas htop e, wf'.previousVisible?_eq hhas' htop' e']
  exact forall₂_find? (List.forall₂_reverse_iff.mpr hbefore) fun _ _ hm => h.isVisible_eq hm

/-- **The next node that is no decoration** is the same. -/
theorem nextUnmarked (hn : M n n') : Option.Rel M (f.nextUnmarked? n) (g.nextUnmarked? n') := by
  obtain ⟨r, r', before, before', after, after', hr, htop, htop', e, e', -, hafter⟩ :=
    h.exists_sides wf wf' hn
  obtain ⟨hhas, hhas'⟩ := h.has r r' hr
  obtain ⟨hw, hbehind⟩ := wf.preorder_behind hhas e
  obtain ⟨hw', hbehind'⟩ := wf'.preorder_behind hhas' e'
  -- behind the subtree is what is left of the list once the nodes of the subtree are dropped
  rw [wf.nextUnmarked?_eq hhas htop hw hbehind, wf'.nextUnmarked?_eq hhas' htop' hw' hbehind',
    ← (h.preorder wf wf' hn).length_eq]
  refine forall₂_find? (.cons hn (forall₂_filter (List.forall₂_drop _ hafter) fun m m' hm => ?_))
    fun m m' hm => ?_
  · rw [isLeaf, isLeaf, Bool.eq_iff_iff, List.isEmpty_iff, List.isEmpty_iff]
    have hlen := (h.children m m' hm).length_eq
    rw [← List.length_eq_zero_iff, ← List.length_eq_zero_iff, hlen]
  · rw [(h.same _ _ hm).isIgnored_eq, h.isBlankText_eq hm]

end Copied

end TreePointer.Forest
