import TreePointer.Proofs.Tree.Nearest
import TreePointer.Proofs.Tree.Refused
import TreePointer.Proofs.Tree.Splicing

/-!
# The number of a child and the child with a number

A child is looked for by its number, and a number by its child. Both count the spliced children that
meet a condition, but only the search by number asks whether the child it stops at is one of them.
For such a child the two are inverse to each other. Any other child has a number as well, unless
nothing in front of it meets the condition, and this number leads to the nearest child in front of it
that does.

* `nthChild_succ_iff`: which child has a number.
* `WellFormed.nthChild_iff_positionOf?`: the two are inverse on children that meet the condition.
* `WellFormed.find?_reverse_iff`: looking back from a child.
* `WellFormed.positionOf?_rejected_iff`: the number of a child that does not meet the condition.
* `WellFormed.positionOf?_inverse`: these together, and where the two are inverse.
* `not_positionOf?_inverse`: they are not everywhere.
-/

namespace TreePointer.Forest

variable {f : Forest} {p b c : Node} {accept : Node → Bool} {left right : List Node} {k : Nat}

/-- The spliced children of a node that meet a condition: those that are numbered. -/
def isNumbered (f : Forest) (p : Node) (accept : Node → Bool) (n : Node) : Bool :=
  decide (n ∈ f.spliced p) && accept n

/-- **The child with a number** has that place in the list of the children that are numbered. -/
theorem nthChild_succ_iff :
    f.nthChild p (k + 1) accept = .found c ↔ ((f.spliced p).filter accept)[k]? = some c := by
  rw [nthChild_eq_found_iff]
  constructor
  · rintro ⟨ha, left, right, e, hcount⟩
    have hlen : (left.filter accept).length = k := by
      rw [← List.countP_eq_length_filter]
      exact Nat.succ.inj hcount
    rw [e, List.filter_append, List.filter_cons_of_pos ha,
      List.getElem?_append_right (Nat.le_of_eq hlen), hlen, Nat.sub_self, List.getElem?_cons_zero]
  · intro h
    obtain ⟨hlt, hget⟩ := List.getElem?_eq_some_iff.mp h
    have hsplit : (f.spliced p).filter accept = ((f.spliced p).filter accept).take k ++
        c :: ((f.spliced p).filter accept).drop (k + 1) := by
      rw [← hget, List.getElem_cons_drop, List.take_append_drop]
    obtain ⟨left, rest, e, hleft, hrest⟩ := List.filter_eq_append_iff.mp hsplit
    obtain ⟨passed, right, rfl, hnone, ha, -⟩ := List.filter_eq_cons_iff.mp hrest
    refine ⟨ha, left ++ passed, right, by rw [e, List.append_assoc], ?_⟩
    rw [List.countP_append, List.countP_eq_length_filter, hleft, List.countP_eq_zero.mpr hnone,
      List.length_take_of_le (Nat.le_of_lt hlt), Nat.add_zero]

/-- What is found first from the end is the last that meets the condition, and is counted last. -/
theorem split_of_find?_reverse (h : left.reverse.find? accept = some b) :
    accept b = true ∧ ∃ before after, left = before ++ b :: after ∧
      left.countP accept = before.countP accept + 1 := by
  obtain ⟨ha, after, before, e, hnone⟩ := List.find?_eq_some_iff_append.mp h
  have hleft : left = before.reverse ++ b :: after.reverse := by
    rw [← List.reverse_reverse left, e, List.reverse_append, List.reverse_cons,
      List.append_assoc, List.singleton_append]
  have hafter : after.reverse.countP accept = 0 := by
    rw [List.countP_eq_zero]
    intro m hm haccept
    have hno := hnone m (List.mem_reverse.mp hm)
    rw [haccept] at hno
    cases hno
  refine ⟨ha, before.reverse, after.reverse, hleft, ?_⟩
  rw [hleft, List.countP_append, List.countP_cons_of_pos ha, hafter, Nat.zero_add]

/-- The last child before others that meets the condition has the number of all that do. -/
theorem nthChild_of_find?_reverse (h : f.spliced p = left ++ right)
    (hb : left.reverse.find? accept = some b) :
    f.nthChild p (left.countP accept) accept = .found b := by
  obtain ⟨ha, before, after, e, hcount⟩ := split_of_find?_reverse hb
  rw [e, List.append_assoc, List.cons_append] at h
  rw [hcount]
  exact nthChild_countP h ha

namespace WellFormed

variable (wf : f.WellFormed)

include wf

/-- **Numbers and children are inverse** where the child meets the condition. -/
theorem nthChild_iff_positionOf? :
    f.nthChild p k accept = .found c ↔ accept c = true ∧ f.positionOf? p c accept = some k := by
  rw [nthChild_eq_found_iff, positionOf?_eq_some_iff]
  constructor
  · rintro ⟨ha, left, right, e, rfl⟩
    -- the search by node stops at the first occurrence, and there is no other
    have hn : c ∉ left := by
      have hnodup := wf.nodup_spliced p
      rw [e] at hnodup
      exact (not_mem_beside_of_nodup hnodup).1
    exact ⟨ha, Nat.succ_pos _, left, right, e, hn, countP_upTo ha⟩
  · rintro ⟨ha, -, left, right, e, -, rfl⟩
    exact ⟨ha, left, right, e, (countP_upTo ha).symm⟩

/-- In the list of spliced children those in front of one are those that are earlier. -/
theorem mem_spliced_before_iff (h : f.spliced p = left ++ c :: right) :
    b ∈ left ↔ b ∈ f.spliced p ∧ f.Earlier b c := by
  have hs := wf.pairwise_spliced p
  rw [h] at hs ⊢
  exact mem_left_iff_of_pairwise earlier_asymm hs

/-- Looking back from a child, what is found first is what is nearest. -/
theorem find?_reverse_iff (h : f.spliced p = left ++ c :: right) :
    left.reverse.find? accept = some b ↔
      Nearest (flip f.Earlier) (f.isNumbered p accept) c b := by
  have hs : left.reverse.Pairwise (flip f.Earlier) := by
    have hall := wf.pairwise_spliced p
    rw [h, List.pairwise_append] at hall
    exact List.pairwise_reverse.mpr hall.1
  rw [find?_eq_some_iff_of_pairwise hs fun a b => earlier_asymm b a, Nearest]
  simp only [List.mem_reverse, wf.mem_spliced_before_iff h, isNumbered, Bool.and_eq_true,
    decide_eq_true_eq, flip]
  constructor
  · rintro ⟨ha, ⟨hb, hlt⟩, hleast⟩
    exact ⟨⟨hb, ha⟩, hlt, fun u hu hlt' => hleast u ⟨hu.1, hlt'⟩ hu.2⟩
  · rintro ⟨⟨hb, ha⟩, hlt, hleast⟩
    exact ⟨ha, ⟨hb, hlt⟩, fun u hu ha' => hleast u ⟨hu.1, ha'⟩ hu.2⟩

/-- **The number of a child that does not meet the condition** is that of the nearest child in front
of it that does. -/
theorem positionOf?_rejected_iff (hc : accept c = false) :
    f.positionOf? p c accept = some k ↔ c ∈ f.spliced p ∧
      ∃ b, Nearest (flip f.Earlier) (f.isNumbered p accept) c b ∧
        f.nthChild p k accept = .found b := by
  have hcount : ∀ left : List Node, (left ++ [c]).countP accept = left.countP accept := by
    intro left
    rw [List.countP_append, List.countP_singleton, hc, if_neg Bool.false_ne_true, Nat.add_zero]
  constructor
  · intro h
    obtain ⟨hpos, left, right, e, -, rfl⟩ := positionOf?_eq_some_iff.mp h
    rw [hcount] at hpos ⊢
    obtain ⟨m, hm, ha⟩ := List.countP_pos_iff.mp hpos
    obtain ⟨b, hb⟩ := Option.isSome_iff_exists.mp
      (List.find?_isSome.mpr ⟨m, List.mem_reverse.mpr hm, ha⟩)
    exact ⟨e ▸ List.mem_append_cons_self, b, (wf.find?_reverse_iff e).mp hb,
      nthChild_of_find?_reverse e hb⟩
  · rintro ⟨hmem, b, hnear, hfound⟩
    obtain ⟨left, right, e, hn⟩ := List.eq_append_cons_of_mem hmem
    have hb := nthChild_of_find?_reverse e ((wf.find?_reverse_iff e).mpr hnear)
    -- the nearest child has one number
    have hposition := (wf.nthChild_iff_positionOf?.mp hfound).2
    rw [(wf.nthChild_iff_positionOf?.mp hb).2, Option.some.injEq] at hposition
    obtain ⟨-, _, _, -, hk⟩ := nthChild_eq_found_iff.mp hfound
    exact positionOf?_eq_some_iff.mpr
      ⟨hk ▸ Nat.succ_pos _, left, right, e, hn, (hcount left).trans hposition⟩

/-- **The number of a child and the child with a number.** The child with a number has that place
among the spliced children that meet the condition, and is the one of them that has that number. A
child that does not meet the condition has the number of the nearest child in front of it that does,
and none if there is no such child. So to look for the number of a node and to look for the node by
the number are inverse just for the nodes that meet the condition and those that have no number. -/
theorem positionOf?_inverse (p c : Node) (accept : Node → Bool) :
    (∀ k, f.nthChild p (k + 1) accept = .found c ↔
      ((f.spliced p).filter accept)[k]? = some c) ∧
    (∀ k, f.nthChild p k accept = .found c ↔
      accept c = true ∧ f.positionOf? p c accept = some k) ∧
    (accept c = false → ∀ k, f.positionOf? p c accept = some k ↔ c ∈ f.spliced p ∧
      ∃ b, Nearest (flip f.Earlier) (f.isNumbered p accept) c b ∧
        f.nthChild p k accept = .found b) ∧
    ((∀ k, 0 < k → (f.positionOf? p c accept = some k ↔ f.nthChild p k accept = .found c)) ↔
      (accept c = true ∨ f.positionOf? p c accept = none)) := by
  refine ⟨fun k => nthChild_succ_iff, fun k => wf.nthChild_iff_positionOf?,
    fun hc k => wf.positionOf?_rejected_iff hc, fun h => ?_, fun h k _ => ?_⟩
  · cases hposition : f.positionOf? p c accept with
    | none => exact .inr rfl
    | some k =>
      have hpos := (positionOf?_eq_some_iff.mp hposition).1
      exact .inl (wf.nthChild_iff_positionOf?.mp ((h k hpos).mp hposition)).1
  · rw [wf.nthChild_iff_positionOf?]
    rcases h with ha | hnone
    · rw [and_iff_right ha]
    · simp [hnone]

end WellFormed

/-- Among the texts of `r` the `c`, two wrappers deep, is the third. The element behind it is no text
and has the number three as well. -/
theorem positionOf?_inverse_wrapped :
    wrapped.WellFormed ∧
      wrapped.nthChild ⟨0⟩ 3 wrapped.isText = .found ⟨5⟩ ∧
      wrapped.positionOf? ⟨0⟩ ⟨5⟩ wrapped.isText = some 3 ∧
      wrapped.positionOf? ⟨0⟩ ⟨6⟩ wrapped.isText = some 3 ∧
      Nearest (flip wrapped.Earlier) (wrapped.isNumbered ⟨0⟩ wrapped.isText) ⟨6⟩ ⟨5⟩ := by
  have wf : wrapped.WellFormed := by decide
  have hfound : wrapped.nthChild ⟨0⟩ 3 wrapped.isText = .found ⟨5⟩ := by decide
  have hposition : wrapped.positionOf? ⟨0⟩ ⟨6⟩ wrapped.isText = some 3 := by decide
  obtain ⟨-, hinverse, -, -⟩ := wf.positionOf?_inverse ⟨0⟩ ⟨5⟩ wrapped.isText
  obtain ⟨-, -, hrejected, -⟩ := wf.positionOf?_inverse ⟨0⟩ ⟨6⟩ wrapped.isText
  obtain ⟨-, b, hnear, hb⟩ := (hrejected (by decide) 3).mp hposition
  cases hfound.symm.trans hb
  exact ⟨wf, hfound, ((hinverse 3).mp hfound).2, hposition, hnear⟩

/-- In `<r><a/><b/></r>` the number of `b` among the children named `a` is one, and the first child
named `a` is not `b`. -/
theorem not_positionOf?_inverse :
    ¬ ∀ (f : Forest) (p c : Node) (accept : Node → Bool) (k : Nat), f.WellFormed → 0 < k →
      (f.positionOf? p c accept = some k ↔ f.nthChild p k accept = .found c) := by
  intro h
  have hnamed := h twoLeaves ⟨0⟩ ⟨2⟩ (fun n => twoLeaves.tagName? n == some "a") 1 (by decide)
    (by decide)
  have hposition : twoLeaves.positionOf? ⟨0⟩ ⟨2⟩ (fun n => twoLeaves.tagName? n == some "a")
      = some 1 := by decide
  exact absurd (hnamed.mp hposition) (by decide)

end TreePointer.Forest
