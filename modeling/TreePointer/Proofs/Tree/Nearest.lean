import TreePointer.Proofs.Tree.Walk
import TreePointer.Proofs.Tree.Check

/-!
# The walkers find the nearest visible text

The walks to the next and the previous visible text are no mirror images: one goes to the first
child or climbs until there is a sibling, the other goes to the deepest last descendant of a sibling
or to the parent. Both follow the list of the tree, and in that list what is nearest is what is met
first. Each loop of the walkers is given here a second time without a bound on its length. It ends,
and with the same answer, so no walk is cut short.

* `Nearest`: the first in an order of what comes after a node and meets a condition.
* `WalkRun`: a walk without a bound, which has an answer only if it ends.
* `WellFormed.walksEnd`: all the loops of the walkers end.
* `WellFormed.visible_nearest`: what the walkers find.
-/

namespace TreePointer

/-! ## First in an order -/

/-- Of all nodes behind `n` that meet a condition, `t` is the first. What is behind a node is said
by an order, which may go in either direction. -/
def Nearest (R : Node → Node → Prop) (accept : Node → Bool) (n t : Node) : Prop :=
  accept t = true ∧ R n t ∧ ∀ u, accept u = true → R n u → u ≠ t → R t u

/-- From the nearest node behind one, the nearest in the other direction is that one. -/
theorem Nearest.undo {R : Node → Node → Prop} {accept : Node → Bool} {n t : Node}
    (h : Nearest R accept n t) (hn : accept n = true) (asymm : ∀ a b, R a b → ¬ R b a)
    (total : ∀ u, R u t → u ≠ n → R u n ∨ R n u) : Nearest (flip R) accept t n := by
  obtain ⟨-, hnt, hleast⟩ := h
  refine ⟨hn, hnt, fun u hu hut hne => ?_⟩
  rcases total u hut hne with hun | hnu
  · exact hun
  · -- between the two there is nothing that meets the condition
    have hneq : u ≠ t := by
      rintro rfl
      exact asymm u u hut hut
    exact absurd hut (asymm t u (hleast u hu hnu hneq))

/-- In a list that is in order, the first element that meets a condition comes before all others
that do. -/
theorem find?_eq_some_iff_of_pairwise {R : Node → Node → Prop} {accept : Node → Bool}
    {ns : List Node} {t : Node} (hs : ns.Pairwise R) (asymm : ∀ a b, R a b → ¬ R b a) :
    ns.find? accept = some t ↔
      accept t = true ∧ t ∈ ns ∧ ∀ u ∈ ns, accept u = true → u ≠ t → R t u := by
  have first : ∀ {m : Node}, ns.find? accept = some m →
      ∀ u ∈ ns, accept u = true → u ≠ m → R m u := by
    intro m hm u hu hacc hne
    obtain ⟨-, before, after, rfl, hnone⟩ := List.find?_eq_some_iff_append.mp hm
    rw [List.pairwise_append, List.pairwise_cons] at hs
    rcases List.mem_append.mp hu with hbefore | hrest
    · have hfalse := hnone u hbefore
      rw [hacc] at hfalse
      cases hfalse
    · exact hs.2.1.1 u ((List.mem_cons.mp hrest).resolve_left hne)
  constructor
  · exact fun h => ⟨List.find?_some h, List.mem_of_find?_eq_some h, first h⟩
  · rintro ⟨hacc, hmem, hleast⟩
    cases hm : ns.find? accept with
    | none => exact absurd hacc (List.find?_eq_none.mp hm t hmem)
    | some m =>
      by_cases hne : t = m
      · rw [hne]
      · exact absurd (first hm t hmem hacc hne) (asymm t m
          (hleast m (List.mem_of_find?_eq_some hm) (List.find?_some hm) (Ne.symm hne)))

section InOrder

variable {R : Node → Node → Prop} {accept : Node → Bool} {ns : List Node} {n t : Node}
  (hmem : ∀ m, m ∈ ns ↔ R n m)

include hmem

/-- In a list of all that is behind a node, in order, the nearest node is the first hit. -/
theorem find?_eq_some_iff_nearest (hs : ns.Pairwise R) (asymm : ∀ a b, R a b → ¬ R b a) :
    ns.find? accept = some t ↔ Nearest R accept n t := by
  rw [find?_eq_some_iff_of_pairwise hs asymm, Nearest]
  simp only [hmem]
  exact and_congr_right fun _ => and_congr_right fun _ => forall_congr' fun _ => forall_comm

theorem find?_eq_none_iff_of_mem :
    ns.find? accept = none ↔ ∀ u, accept u = true → ¬ R n u := by
  rw [List.find?_eq_none]
  simp only [hmem]
  exact forall_congr' fun _ => imp_not_comm

end InOrder

namespace Forest

variable {f : Forest} {n m t : Node}

/-- The first node is earlier in document order. -/
def Earlier (f : Forest) (a b : Node) : Prop := f.compareOrder a b = .ok .lt

theorem earlier_asymm (a b : Node) (h : f.Earlier a b) : ¬ f.Earlier b a :=
  compareOrder_asymm a b h

theorem top_eq_of_earlier (h : f.Earlier n m) : f.top n = f.top m := by
  refine Decidable.byContradiction fun hne => ?_
  rw [Earlier, compareOrder_of_top_ne hne] at h
  cases h

theorem has_of_isVisible (h : f.isVisible t = true) : f.Has t := by
  rw [isVisible, isShown, Bool.and_eq_true, Bool.and_eq_true] at h
  exact has_of_isText h.1.1

/-! ## Walks without a bound -/

/-- A walk with as many steps as it takes: it ends at the first node that meets the condition, or
past the last node. -/
inductive WalkRun (step : Node → Option Node) (accept : Node → Bool) :
    Option Node → Option Node → Prop
  | past : WalkRun step accept none none
  | here {n : Node} (h : accept n = true) : WalkRun step accept (some n) (some n)
  | on {n : Node} {found : Option Node} (h : accept n = false)
      (rest : WalkRun step accept (step n) found) : WalkRun step accept (some n) found

/-- A walk whose steps follow a list ends at the first node of the list that meets the condition. -/
theorem walkRun_find? {step : Node → Option Node} (accept : Node → Bool) {ns : List Node}
    (hstep : ∀ xs x ys, ns = xs ++ x :: ys → step x = ys.head?) :
    WalkRun step accept ns.head? (ns.find? accept) := by
  induction ns with
  | nil => exact .past
  | cons n ns ih =>
    rw [List.head?_cons, List.find?_cons]
    cases h : accept n with
    | true => exact .here h
    | false =>
      refine .on h ?_
      rw [hstep [] n ns rfl]
      exact ih fun xs x ys e => hstep (n :: xs) x ys (by rw [e, List.cons_append])

/-- The loops of the walkers from a node end, each with the answer that the walk with a bound
gives. -/
structure WalksEnd (f : Forest) (n : Node) : Prop where
  /-- Climbing to where there is a next sibling. -/
  following : ∃ m, WalkRun f.parent (fun m => (f.nextSibling? m).isSome) (some n) m ∧
    f.following? n = m.bind f.nextSibling?
  /-- Going down to the last leaf. -/
  lastLeaf : WalkRun (fun m => (f.children m).getLast?) f.isLeaf (some n) (some (f.lastLeaf n))
  /-- Going on to the next visible text. -/
  next : WalkRun f.nextInOrder? f.isVisible
    (if f.isText n then f.following? n else f.nextInOrder? n) (f.nextVisible? n)
  /-- Going back to the previous visible text. -/
  previous : WalkRun f.previousInOrder? f.isVisible (f.previousInOrder? n) (f.previousVisible? n)

namespace WellFormed

variable (wf : f.WellFormed)

include wf

/-! ## Around a node -/

/-- The list of the tree around a node. -/
theorem exists_around (hn : f.Has n) : f.Has (f.top n) ∧ f.parent (f.top n) = none ∧
    ∃ before after, f.preorder (f.top n) = before ++ n :: after := by
  have hw := f.within_top n
  have hr : f.Has (f.top n) := by
    rcases hw with e | h
    · exact e ▸ hn
    · exact wf.has_of_mem h
  exact ⟨hr, parent_top wf n, List.append_of_mem ((wf.mem_preorder_iff hr).mpr hw)⟩

/-- Two nodes of one tree are in an order. -/
theorem earlier_total (hn : f.Has n) (h : f.top m = f.top n) (hne : m ≠ n) :
    f.Earlier m n ∨ f.Earlier n m :=
  (wf.compareOrder_total (wf.exists_around hn).1 (h ▸ f.within_top m)
    (f.within_top n)).resolve_left hne

section Around

variable {before after : List Node} (hr : f.Has (f.top n))
  (h : f.preorder (f.top n) = before ++ n :: after)

include hr h

/-- Behind a node in the list is what is later. -/
theorem mem_after_iff : m ∈ after ↔ f.Earlier n m :=
  ⟨fun hm => wf.compareOrder_of_after hr h hm, fun hlt => wf.mem_after_of_compareOrder hr h
    (top_eq_of_earlier hlt ▸ f.within_top m) hlt⟩

/-- In front of a node in the list is what is earlier. -/
theorem mem_before_iff : m ∈ before ↔ f.Earlier m n :=
  ⟨fun hm => wf.compareOrder_of_before hr h hm, fun hlt => wf.mem_before_of_compareOrder hr h
    (top_eq_of_earlier hlt ▸ f.within_top m) hlt⟩

theorem pairwise_around : after.Pairwise f.Earlier ∧ before.reverse.Pairwise (flip f.Earlier) := by
  have hp := wf.pairwise_preorder hr
  rw [h, List.pairwise_append, List.pairwise_cons] at hp
  exact ⟨hp.2.1.2, List.pairwise_reverse.mpr hp.1⟩

end Around

/-! ## The loops of the walkers -/

/-- Climbing ends, at the first ancestor with a next sibling or past the top. -/
theorem exists_walkRun_following (n : Node) :
    ∃ m, WalkRun f.parent (fun m => (f.nextSibling? m).isSome) (some n) m ∧
      f.following? n = m.bind f.nextSibling? := by
  induction n using wf.up_ends.induction with
  | _ n ih =>
    cases hs : f.nextSibling? n with
    | some s =>
      refine ⟨some n, .here (by rw [hs]; rfl), ?_⟩
      rw [Option.bind_some, following?, hs]
      rfl
    | none =>
      have hnot : (f.nextSibling? n).isSome = false := by rw [hs]; rfl
      cases hp : f.parent n with
      | none =>
        refine ⟨none, .on hnot (by rw [hp]; exact .past), ?_⟩
        rw [following?, hs, findUp?_eq, ancestors_of_top hp]
        rfl
      | some p =>
        obtain ⟨m, hrun, e⟩ := ih p hp
        refine ⟨m, .on hnot (by rw [hp]; exact hrun), ?_⟩
        rw [following?, hs, wf.findUp?_of_parent _ hp]
        exact e

/-- Going down ends at a leaf, as no node is deeper than the forest is large. -/
theorem walkRun_lastLeafWithin {k : Nat} (hn : f.Has n) (h : f.size ≤ k + (f.ancestors n).length) :
    WalkRun (fun m => (f.children m).getLast?) f.isLeaf (some n)
      (some (f.lastLeafWithin k n)) := by
  induction k generalizing n with
  | zero => exact absurd (wf.depth_lt_size hn) (by omega)
  | succ k ih =>
    rw [lastLeafWithin]
    cases hlast : (f.children n).getLast? with
    | none => exact .here (List.isEmpty_iff.mpr (List.getLast?_eq_none_iff.mp hlast))
    | some c =>
      have hmem : c ∈ f.children n := List.mem_of_getLast? hlast
      refine .on (List.isEmpty_eq_false_iff_exists_mem.mpr ⟨c, hmem⟩) ?_
      dsimp only
      rw [hlast]
      exact ih (wf.has_child hmem) (by rw [wf.depth_child hmem]; omega)

/-- **All loops of the walkers end**, with what the walks with a bound give. -/
theorem walksEnd (hn : f.Has n) : f.WalksEnd n := by
  obtain ⟨hr, htop, before, after, h⟩ := wf.exists_around hn
  refine ⟨wf.exists_walkRun_following n, wf.walkRun_lastLeafWithin hn (Nat.le_add_right _ _),
    ?_, ?_⟩
  · rw [wf.visibleStart_eq, wf.nextInOrder?_eq hr htop h, wf.nextVisible?_eq hr htop h]
    exact walkRun_find? _ fun _ _ _ e => wf.nextInOrder?_behind hr htop h e
  · rw [wf.previousInOrder?_eq hr htop h, wf.previousVisible?_eq hr htop h,
      List.getLast?_eq_head?_reverse]
    exact walkRun_find? _ fun _ _ _ e => wf.previousInOrder?_ahead hr htop h e

/-! ## What the walkers find -/

theorem nextVisible?_eq_some_iff (hn : f.Has n) :
    f.nextVisible? n = some t ↔ Nearest f.Earlier f.isVisible n t := by
  obtain ⟨hr, htop, before, after, h⟩ := wf.exists_around hn
  rw [wf.nextVisible?_eq hr htop h]
  exact find?_eq_some_iff_nearest (fun _ => wf.mem_after_iff hr h) (wf.pairwise_around hr h).1
    earlier_asymm

theorem previousVisible?_eq_some_iff (hn : f.Has n) :
    f.previousVisible? n = some t ↔ Nearest (flip f.Earlier) f.isVisible n t := by
  obtain ⟨hr, htop, before, after, h⟩ := wf.exists_around hn
  rw [wf.previousVisible?_eq hr htop h]
  exact find?_eq_some_iff_nearest (fun _ => List.mem_reverse.trans (wf.mem_before_iff hr h))
    (wf.pairwise_around hr h).2 fun a b => earlier_asymm b a

theorem nextVisible?_eq_none_iff (hn : f.Has n) :
    f.nextVisible? n = none ↔ ∀ t, f.isVisible t = true → ¬ f.Earlier n t := by
  obtain ⟨hr, htop, before, after, h⟩ := wf.exists_around hn
  rw [wf.nextVisible?_eq hr htop h]
  exact find?_eq_none_iff_of_mem fun _ => wf.mem_after_iff hr h

theorem previousVisible?_eq_none_iff (hn : f.Has n) :
    f.previousVisible? n = none ↔ ∀ t, f.isVisible t = true → ¬ f.Earlier t n := by
  obtain ⟨hr, htop, before, after, h⟩ := wf.exists_around hn
  rw [wf.previousVisible?_eq hr htop h]
  exact find?_eq_none_iff_of_mem (R := flip f.Earlier)
    fun _ => List.mem_reverse.trans (wf.mem_before_iff hr h)

/-- **The walkers find the nearest visible text.** From any node their loops end. The next visible
text is the first in document order of all non-empty texts behind the node whose parent has no mark,
the previous one the last of those in front of it, and there is none just if there is no such text.
So on visible texts each undoes the other. -/
theorem visible_nearest (hn : f.Has n) :
    f.WalksEnd n ∧
    (∀ t, f.nextVisible? n = some t ↔ Nearest f.Earlier f.isVisible n t) ∧
    (∀ t, f.previousVisible? n = some t ↔ Nearest (flip f.Earlier) f.isVisible n t) ∧
    (f.nextVisible? n = none ↔ ∀ t, f.isVisible t = true → ¬ f.Earlier n t) ∧
    (f.previousVisible? n = none ↔ ∀ t, f.isVisible t = true → ¬ f.Earlier t n) ∧
    (f.isVisible n = true → ∀ t,
      (f.nextVisible? n = some t → f.previousVisible? t = some n) ∧
      (f.previousVisible? n = some t → f.nextVisible? t = some n)) := by
  refine ⟨wf.walksEnd hn, fun t => wf.nextVisible?_eq_some_iff hn,
    fun t => wf.previousVisible?_eq_some_iff hn, wf.nextVisible?_eq_none_iff hn,
    wf.previousVisible?_eq_none_iff hn, fun hvisible t => ⟨fun h => ?_, fun h => ?_⟩⟩
  · have hnear := (wf.nextVisible?_eq_some_iff hn).mp h
    have htop := top_eq_of_earlier hnear.2.1
    refine (wf.previousVisible?_eq_some_iff (has_of_isVisible hnear.1)).mpr
      (hnear.undo hvisible earlier_asymm fun u hut hne => ?_)
    exact wf.earlier_total hn ((top_eq_of_earlier hut).trans htop.symm) hne
  · have hnear := (wf.previousVisible?_eq_some_iff hn).mp h
    have htop := top_eq_of_earlier hnear.2.1
    refine (wf.nextVisible?_eq_some_iff (has_of_isVisible hnear.1)).mpr
      (hnear.undo hvisible (fun a b => earlier_asymm b a) fun u hut hne => ?_)
    exact (wf.earlier_total hn ((top_eq_of_earlier hut).symm.trans htop) hne).symm

end WellFormed

/-- The tree `<r>a<m>x</m><b>c</b></r>` with an empty text at its end, where `m` is hidden. -/
def veiled : Forest := ⟨#[
  { Record.bare .element with name := some (.plain "r"), children := [⟨1⟩, ⟨2⟩, ⟨4⟩, ⟨6⟩] },
  { Record.bare .text with value := some "a", parent := some ⟨0⟩ },
  { Record.bare .element with
    name := some (.plain "m"), parent := some ⟨0⟩, children := [⟨3⟩]
    attributes := [⟨⟨none, Mark.hide.attributeName, some Mark.uri⟩, Mark.set⟩] },
  { Record.bare .text with value := some "x", parent := some ⟨2⟩ },
  { Record.bare .element with name := some (.plain "b"), parent := some ⟨0⟩, children := [⟨5⟩] },
  { Record.bare .text with value := some "c", parent := some ⟨4⟩ },
  { Record.bare .text with value := some "", parent := some ⟨0⟩ }]⟩

/-- From the `a` the hidden text is passed over, and behind the `c` only an empty text is left. -/
theorem visible_nearest_veiled :
    veiled.WellFormed ∧ veiled.WalksEnd ⟨1⟩ ∧ veiled.nextVisible? ⟨1⟩ = some ⟨5⟩ ∧
      Nearest veiled.Earlier veiled.isVisible ⟨1⟩ ⟨5⟩ ∧ veiled.previousVisible? ⟨5⟩ = some ⟨1⟩ ∧
      ∀ t, veiled.isVisible t = true → ¬ veiled.Earlier ⟨5⟩ t := by
  have wf : veiled.WellFormed := by decide
  have hnext : veiled.nextVisible? ⟨1⟩ = some ⟨5⟩ := by decide
  obtain ⟨hends, hnear, -, -, -, hundo⟩ := wf.visible_nearest (n := ⟨1⟩) (by decide)
  obtain ⟨-, -, -, hnone, -, -⟩ := wf.visible_nearest (n := ⟨5⟩) (by decide)
  exact ⟨wf, hends, hnext, (hnear ⟨5⟩).mp hnext, (hundo (by decide) ⟨5⟩).1 hnext,
    hnone.mp (by decide)⟩

end Forest

end TreePointer
