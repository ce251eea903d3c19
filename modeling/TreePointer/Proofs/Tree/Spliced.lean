import TreePointer.Proofs.Tree.Descent
import TreePointer.Splice

/-!
# Spliced children and effective parents

The two directions in which addresses see through ignored elements belong together: a node that is
not ignored stands among the spliced children of its effective parent. Its number there, among
those that meet a condition, leads back to it.

* `WellFormed.spliced_eq`: the spliced children of a node, child by child.
* `WellFormed.mem_spliced`: a node is among the spliced children of its effective parent.
* `nthChild_eq_found_iff`, `positionOf?_eq_some_iff`: numbers and children.
-/

namespace TreePointer.Forest

variable {f : Forest}

/-! ## Numbers of children -/

section Numbers

variable {p n : Node} {accept : Node → Bool} {left right : List Node}

theorem positionStep_left {seen : Nat} (hn : n ∉ left) :
    left.foldlM (positionStep accept n) seen = .ok (seen + left.countP accept) := by
  induction left generalizing seen with
  | nil => rfl
  | cons c left ih =>
    rw [List.mem_cons, not_or] at hn
    have hstep : positionStep accept n seen c = .ok (if accept c then seen + 1 else seen) := by
      rw [positionStep, if_neg (Ne.symm hn.1)]
    rw [List.foldlM_cons, hstep, List.countP_cons]
    show List.foldlM _ _ _ = _
    rw [ih hn.2]
    by_cases h : accept c = true
    · rw [if_pos h, if_pos h]
      congr 1
      omega
    · rw [if_neg h, if_neg h, Nat.add_zero]

/-- A node that meets the condition is counted with those before it. -/
theorem countP_upTo (ha : accept n = true) :
    (left ++ [n]).countP accept = left.countP accept + 1 := by
  rw [List.countP_append, List.countP_singleton, if_pos ha]

/-- The number of a child counts those that meet the condition up to the child itself, and there is
none if it would be zero. -/
theorem positionOf?_append (h : f.spliced p = left ++ n :: right) (hn : n ∉ left) :
    f.positionOf? p n accept =
      if 0 < (left ++ [n]).countP accept then some ((left ++ [n]).countP accept) else none := by
  have hfold : (f.spliced p).foldlM (positionStep accept n) 0 = .error
      (if 0 < (left ++ [n]).countP accept then some ((left ++ [n]).countP accept) else none) := by
    rw [h, List.foldlM_append, positionStep_left hn, List.countP_append, List.countP_singleton]
    cases ha : accept n <;> simp [positionStep, ha, bind, Except.bind]
  rw [positionOf?, visitSpliced_eq, hfold]

/-- The number of a child that meets the condition is one more than the number of those before
it. -/
theorem positionOf?_countP (h : f.spliced p = left ++ n :: right) (hn : n ∉ left)
    (ha : accept n = true) : f.positionOf? p n accept = some (left.countP accept + 1) := by
  rw [positionOf?_append h hn, countP_upTo ha, if_pos (Nat.succ_pos _)]

/-- What is not among the spliced children has no number there. -/
theorem positionOf?_of_not_mem (h : n ∉ f.spliced p) : f.positionOf? p n accept = none := by
  rw [positionOf?, visitSpliced_eq, positionStep_left h]

/-- **When a node has a number**: it is a spliced child, and so many meet the condition up to it. -/
theorem positionOf?_eq_some_iff {k : Nat} : f.positionOf? p n accept = some k ↔
    0 < k ∧ ∃ left right, f.spliced p = left ++ n :: right ∧ n ∉ left ∧
      (left ++ [n]).countP accept = k := by
  constructor
  · intro h
    have hmem : n ∈ f.spliced p := by
      refine Decidable.byContradiction fun hn => ?_
      rw [positionOf?_of_not_mem hn] at h
      cases h
    obtain ⟨left, right, e, hn⟩ := List.eq_append_cons_of_mem hmem
    rw [positionOf?_append e hn] at h
    split at h
    · next hpos =>
      cases h
      exact ⟨hpos, left, right, e, hn, rfl⟩
    · cases h
  · rintro ⟨hpos, left, right, e, hn, rfl⟩
    rw [positionOf?_append e hn, if_pos hpos]

theorem nthStep_left {k seen : Nat} (h : seen + left.countP accept < k) :
    left.foldlM (nthStep accept k) seen = .ok (seen + left.countP accept) := by
  induction left generalizing seen with
  | nil => rfl
  | cons c left ih =>
    rw [List.countP_cons] at h ⊢
    rw [List.foldlM_cons, nthStep]
    by_cases hc : accept c = true
    · rw [if_pos hc] at h ⊢
      rw [if_neg (by omega)]
      show List.foldlM _ _ _ = _
      rw [ih (by omega), if_pos hc]
      congr 1
      omega
    · rw [if_neg hc] at h ⊢
      show List.foldlM _ _ _ = _
      rw [ih (by omega), if_neg hc, Nat.add_zero]

/-- The child with that number is found. -/
theorem nthChild_countP (h : f.spliced p = left ++ n :: right) (ha : accept n = true) :
    f.nthChild p (left.countP accept + 1) accept = .found n := by
  have hfold : (f.spliced p).foldlM (nthStep accept (left.countP accept + 1)) 0 = .error n := by
    rw [h, List.foldlM_append, nthStep_left (by omega)]
    simp [nthStep, ha, bind, Except.bind]
  rw [nthChild, visitSpliced_eq, hfold]

/-- Where the search for a numbered child stops, that child is the last of as many. -/
theorem exists_of_nthStep {k seen : Nat} {ns : List Node}
    (h : ns.foldlM (nthStep accept k) seen = .error n) :
    accept n = true ∧ ∃ left right, ns = left ++ n :: right ∧ seen + left.countP accept + 1 = k := by
  induction ns generalizing seen with
  | nil => cases h
  | cons m ms ih =>
    rw [List.foldlM_cons, nthStep] at h
    by_cases hm : accept m = true
    · rw [if_pos hm] at h
      by_cases hk : seen + 1 = k
      · rw [if_pos hk] at h
        cases h
        exact ⟨hm, [], ms, rfl, hk⟩
      · rw [if_neg hk] at h
        obtain ⟨ha, left, right, rfl, hcount⟩ := ih h
        refine ⟨ha, m :: left, right, rfl, ?_⟩
        rw [List.countP_cons_of_pos hm]
        omega
    · rw [if_neg hm] at h
      obtain ⟨ha, left, right, rfl, hcount⟩ := ih h
      refine ⟨ha, m :: left, right, rfl, ?_⟩
      rw [List.countP_cons_of_neg hm]
      exact hcount

/-- **Which child has a number**: the one that meets the condition with so many up to it. -/
theorem nthChild_eq_found_iff {k : Nat} : f.nthChild p k accept = .found n ↔
    accept n = true ∧ ∃ left right, f.spliced p = left ++ n :: right ∧
      left.countP accept + 1 = k := by
  constructor
  · intro h
    rw [nthChild, visitSpliced_eq] at h
    split at h
    · next m hm =>
      cases h
      obtain ⟨ha, left, right, e, hcount⟩ := exists_of_nthStep hm
      exact ⟨ha, left, right, e, by rw [← hcount, Nat.zero_add]⟩
    · cases h
  · rintro ⟨ha, left, right, e, rfl⟩
    exact nthChild_countP e ha

/-- The child with a number meets the condition. -/
theorem mem_of_nthChild {k : Nat} (h : f.nthChild p k accept = .found n) :
    n ∈ (f.spliced p).filter accept := by
  obtain ⟨ha, left, right, e, -⟩ := nthChild_eq_found_iff.mp h
  rw [e]
  exact List.mem_filter.mpr ⟨List.mem_append_cons_self, ha⟩

/-- No ignored node is among the spliced children. -/
theorem not_isIgnored_of_mem_spliced (h : n ∈ f.spliced p) : f.isIgnored n = false := by
  rw [spliced, splice] at h
  generalize f.size = k at h
  induction k generalizing p with
  | zero => cases h
  | succ k ih =>
    obtain ⟨c, -, hn⟩ := List.mem_flatMap.mp h
    split at hn
    · exact ih hn
    · next hc =>
      rw [List.mem_singleton.mp hn]
      exact Bool.eq_false_iff.mpr hc

/-- **The number of a child** is a position, and leads back to the child if that meets the
condition. -/
theorem positionOf?_spec {i : Nat} (h : f.positionOf? p n accept = some i) :
    0 < i ∧ i ≤ (f.spliced p).length ∧ (accept n = true → f.nthChild p i accept = .found n) := by
  obtain ⟨hpos, left, right, e, -, rfl⟩ := positionOf?_eq_some_iff.mp h
  refine ⟨hpos, ?_, fun ha => ?_⟩
  · rw [List.append_cons] at e
    rw [e, List.length_append]
    exact Nat.le_trans List.countP_le_length (Nat.le_add_right _ _)
  · rw [countP_upTo ha]
    exact nthChild_countP e ha

end Numbers

/-- Only elements are ignored. -/
theorem isElement_of_isIgnored {n : Node} (h : f.isIgnored n = true) : f.isElement n = true := by
  rw [isIgnored, hasMark, Bool.and_eq_true] at h
  exact h.1

theorem effectiveParent?_of_top {n : Node} (h : f.parent n = none) :
    f.effectiveParent? n = none := by
  rw [effectiveParent?_eq, effectiveAncestors, ancestors_of_top h]
  rfl

theorem effectiveParent?_spec {n p : Node} (h : f.effectiveParent? n = some p) :
    p ∈ f.ancestors n ∧ f.isIgnored p = false := by
  rw [effectiveParent?_eq] at h
  have hmem := List.mem_filter.mp (List.mem_of_head? h)
  exact ⟨hmem.1, by simpa using hmem.2⟩

/-- Below a node that is not ignored every other node has an effective parent. -/
theorem exists_effectiveParent? {r n : Node} (hi : f.isIgnored r = false) (hn : f.Within r n)
    (hne : n ≠ r) : ∃ p, f.effectiveParent? n = some p := by
  have hmem : r ∈ f.effectiveAncestors n := by
    rw [effectiveAncestors, List.mem_filter]
    exact ⟨hn.resolve_left hne, by rw [hi]; rfl⟩
  rw [effectiveParent?_eq]
  cases h : f.effectiveAncestors n with
  | nil =>
    rw [h] at hmem
    cases hmem
  | cons p ps => exact ⟨p, rfl⟩

namespace WellFormed

variable (wf : f.WellFormed)

include wf

/-! ## Downwards -/

theorem spliceWithin_succ {k : Nat} {p : Node} (hp : f.Has p)
    (h : f.size ≤ k + (f.ancestors p).length) :
    f.spliceWithin f.isIgnored (k + 1) p = f.spliceWithin f.isIgnored k p := by
  induction k generalizing p with
  | zero => exact absurd (wf.depth_lt_size hp) (by omega)
  | succ k ih =>
    rw [spliceWithin, spliceWithin]
    refine flatMap_congr_mem fun c hc => ?_
    rw [ih (wf.has_child hc) (by rw [wf.depth_child hc]; omega)]

/-- **The spliced children of a node**: its children, with the spliced children of an ignored one
in its place. -/
theorem spliced_eq {p : Node} (hp : f.Has p) :
    f.spliced p = (f.children p).flatMap fun c => if f.isIgnored c then f.spliced c else [c] := by
  rw [spliced, splice, ← wf.spliceWithin_succ hp (Nat.le_add_right _ _), spliceWithin]
  rfl

/-- Where no child is ignored the spliced children are the children. -/
theorem spliced_of_plain {p : Node} (hp : f.Has p)
    (h : ∀ c ∈ f.children p, f.isIgnored c = false) : f.spliced p = f.children p := by
  have hflat : ∀ c ∈ f.children p, (if f.isIgnored c then f.spliced c else [c]) = [c] :=
    fun c hc => if_neg (Bool.eq_false_iff.mp (h c hc))
  rw [wf.spliced_eq hp, flatMap_congr_mem hflat, List.flatMap_singleton']

/-! ## Upwards -/

theorem effectiveAncestors_of_parent {n p : Node} (h : f.parent n = some p) :
    f.effectiveAncestors n =
      if f.isIgnored p then f.effectiveAncestors p else p :: f.effectiveAncestors p := by
  rw [effectiveAncestors, wf.ancestors_of_parent h, List.filter_cons]
  by_cases hi : f.isIgnored p = true
  · simp [hi, effectiveAncestors]
  · simp [hi, effectiveAncestors]

theorem effectiveParent?_of_parent {n p : Node} (h : f.parent n = some p) :
    f.effectiveParent? n = if f.isIgnored p then f.effectiveParent? p else some p := by
  rw [effectiveParent?_eq, wf.effectiveAncestors_of_parent h, effectiveParent?_eq]
  by_cases hi : f.isIgnored p = true
  · rw [if_pos hi, if_pos hi]
  · rw [if_neg hi, if_neg hi, List.head?_cons]

/-- The effective ancestors of a node are its effective parent and the parent's own. -/
theorem effectiveAncestors_cons {n p : Node} (h : f.effectiveParent? n = some p) :
    f.effectiveAncestors n = p :: f.effectiveAncestors p := by
  induction n using wf.up_ends.induction with
  | _ n ih =>
    cases hq : f.parent n with
    | none =>
      rw [effectiveParent?_of_top hq] at h
      cases h
    | some q =>
      rw [wf.effectiveParent?_of_parent hq] at h
      rw [wf.effectiveAncestors_of_parent hq]
      by_cases hi : f.isIgnored q = true
      · rw [if_pos hi] at h ⊢
        exact ih q hq h
      · rw [if_neg hi, Option.some.injEq] at h
        rw [if_neg hi, h]

/-- The first effective ancestor of a node is its effective parent, and the others are the
parent's. -/
theorem effectiveAncestors_eq_cons {n p : Node} {above : List Node}
    (h : f.effectiveAncestors n = p :: above) :
    f.effectiveParent? n = some p ∧ f.effectiveAncestors p = above := by
  have hp : f.effectiveParent? n = some p := by
    rw [effectiveParent?_eq, h, List.head?_cons]
  rw [wf.effectiveAncestors_cons hp] at h
  exact ⟨hp, (List.cons.inj h).2⟩

/-- What an ignored node shows is shown by the nearest node above that is not. -/
theorem spliced_of_ignored {n m p : Node} (hi : f.isIgnored m = true) (hn : n ∈ f.spliced m)
    (h : f.effectiveParent? m = some p) : n ∈ f.spliced p := by
  induction m using wf.up_ends.induction with
  | _ m ih =>
    cases hq : f.parent m with
    | none =>
      rw [effectiveParent?_of_top hq] at h
      cases h
    | some q =>
      have hmem : n ∈ f.spliced q := by
        rw [wf.spliced_eq (wf.has_parent m q hq), List.mem_flatMap]
        exact ⟨m, wf.mem_of_parent hq, by rw [if_pos hi]; exact hn⟩
      rw [wf.effectiveParent?_of_parent hq] at h
      by_cases hqi : f.isIgnored q = true
      · rw [if_pos hqi] at h
        exact ih q hq hqi hmem h
      · rw [if_neg hqi, Option.some.injEq] at h
        exact h ▸ hmem

/-- **A node that is not ignored** is among the spliced children of its effective parent. -/
theorem mem_spliced {n p : Node} (hi : f.isIgnored n = false) (h : f.effectiveParent? n = some p) :
    n ∈ f.spliced p := by
  cases hq : f.parent n with
  | none =>
    rw [effectiveParent?_of_top hq] at h
    cases h
  | some q =>
    have hmem : n ∈ f.spliced q := by
      rw [wf.spliced_eq (wf.has_parent n q hq), List.mem_flatMap]
      exact ⟨n, wf.mem_of_parent hq, by rw [hi]; exact List.mem_cons_self⟩
    rw [wf.effectiveParent?_of_parent hq] at h
    by_cases hqi : f.isIgnored q = true
    · rw [if_pos hqi] at h
      exact wf.spliced_of_ignored hqi hmem h
    · rw [if_neg hqi, Option.some.injEq] at h
      exact h ▸ hmem

/-- The position of a node among its spliced siblings leads back to it. -/
theorem exists_position {n p : Node} {accept : Node → Bool} (hi : f.isIgnored n = false)
    (h : f.effectiveParent? n = some p) (ha : accept n = true) :
    ∃ i, 0 < i ∧ i ≤ (f.spliced p).length ∧ f.positionOf? p n accept = some i ∧
      f.nthChild p i accept = .found n := by
  obtain ⟨left, right, e, hn⟩ := List.eq_append_cons_of_mem (wf.mem_spliced hi h)
  refine ⟨left.countP accept + 1, Nat.succ_pos _, ?_, positionOf?_countP e hn ha,
    nthChild_countP e ha⟩
  have hle := List.countP_le_length (p := accept) (l := left)
  rw [e, List.length_append, List.length_cons]
  omega

end WellFormed

end TreePointer.Forest
