import TreePointer.Proofs.Tree.Descent

/-!
# Document order is the order of the subtree list

Document order compares the paths of two nodes; a subtree is listed by going down. The two agree: a
node earlier in the list is earlier in document order. So in one tree the order is total, no node is
listed twice, and the place of a node in the list says everything about its order.

* `mem_left_iff_of_pairwise`, `mem_right_iff_of_pairwise`: the two sides of a node in a list.
* `compareOrder_swap`: exchanging the nodes exchanges the answer.
* `compareOrder_of_top_ne`: nodes of different trees are in no order.
* `WellFormed.pairwise_preorder`: the list of a subtree is in document order.
* `WellFormed.nodup_preorder`: it lists no node twice.
* `WellFormed.compareOrder_of_after`, `WellFormed.compareOrder_of_before`: order read off the list.
-/

namespace TreePointer.Forest

variable {f : Forest}

/-- Where a node stands in a list without repetitions. -/
theorem idxOf?_of_nodup {left right : List Node} {n : Node} (h : (left ++ n :: right).Nodup) :
    (left ++ n :: right).idxOf? n = some left.length := by
  induction left with
  | nil => simp [List.idxOf?_cons]
  | cons m left ih =>
    rw [List.cons_append, List.nodup_cons] at h
    have hne : m ≠ n := fun e => h.1 (e ▸ List.mem_append_right _ List.mem_cons_self)
    simp [List.idxOf?_cons, hne, ih h.2]

/-- In a list without repetitions a node stands on neither side of itself. -/
theorem not_mem_beside_of_nodup {left right : List Node} {n : Node}
    (h : (left ++ n :: right).Nodup) : n ∉ left ∧ n ∉ right := by
  rw [List.nodup_append, List.nodup_cons] at h
  exact ⟨fun hn => h.2.2 n hn n List.mem_cons_self rfl, h.2.1.1⟩

/-! ## Lists in an order -/

section Ordered

variable {R : Node → Node → Prop} (asymm : ∀ a b, R a b → ¬ R b a)

include asymm

/-- A list in an order has no repetitions. -/
theorem nodup_of_pairwise {ns : List Node} (hs : ns.Pairwise R) : ns.Nodup := by
  refine hs.imp fun {a b} h e => ?_
  subst e
  exact asymm a a h h

variable {left right : List Node} {n m : Node} (hs : (left ++ n :: right).Pairwise R)

include hs

/-- In a list in an order those in front of a node are those that come before it. -/
theorem mem_left_iff_of_pairwise : m ∈ left ↔ m ∈ left ++ n :: right ∧ R m n := by
  rw [List.pairwise_append, List.pairwise_cons] at hs
  obtain ⟨-, ⟨hright, -⟩, hleft⟩ := hs
  constructor
  · exact fun hm => ⟨List.mem_append_left _ hm, hleft m hm n List.mem_cons_self⟩
  · rintro ⟨hm, hmn⟩
    refine (List.mem_append.mp hm).resolve_right fun hrest => ?_
    rcases List.mem_cons.mp hrest with rfl | hafter
    · exact asymm m m hmn hmn
    · exact asymm n m (hright m hafter) hmn

/-- In a list in an order those behind a node are those that come after it. -/
theorem mem_right_iff_of_pairwise : m ∈ right ↔ m ∈ left ++ n :: right ∧ R n m := by
  rw [List.pairwise_append, List.pairwise_cons] at hs
  obtain ⟨-, ⟨hright, -⟩, hleft⟩ := hs
  constructor
  · exact fun hm => ⟨List.mem_append_right _ (List.mem_cons_of_mem n hm), hright m hm⟩
  · rintro ⟨hm, hnm⟩
    rcases List.mem_append.mp hm with hbefore | hrest
    · exact absurd hnm (asymm m n (hleft m hbefore n List.mem_cons_self))
    · rcases List.mem_cons.mp hrest with rfl | hafter
      · exact absurd hnm (asymm m m hnm)
      · exact hafter

end Ordered

/-! ## Comparing paths -/

theorem comparePaths_swap (above : Option Node) (xs ys : List Node) :
    f.comparePaths above ys xs = (f.comparePaths above xs ys).map Ordering.swap := by
  induction xs generalizing above ys with
  | nil => cases ys <;> rfl
  | cons x xs ih =>
    cases ys with
    | nil => rfl
    | cons y ys =>
      by_cases h : x = y
      · subst h
        simp only [comparePaths, if_true]
        exact ih (some x) ys
      · simp only [comparePaths, if_neg h, if_neg (Ne.symm h)]
        cases above with
        | none => rfl
        | some p =>
          simp only
          cases (f.children p).idxOf? x with
          | none => cases (f.children p).idxOf? y <;> rfl
          | some i =>
            cases (f.children p).idxOf? y with
            | none => rfl
            | some j =>
              show Except.ok (compare j i) = Except.ok (compare i j).swap
              rw [Nat.compare_swap]

/-- Exchanging the nodes exchanges the answer. -/
theorem compareOrder_swap (a b : Node) :
    f.compareOrder b a = (f.compareOrder a b).map Ordering.swap :=
  f.comparePaths_swap none (f.path a) (f.path b)

theorem compareOrder_asymm (a b : Node) (h : f.compareOrder a b = .ok .lt) :
    ¬ f.compareOrder b a = .ok .lt := by
  rw [compareOrder_swap, h]
  nofun

/-- What two paths have in common plays no part. -/
theorem comparePaths_append (above : Option Node) (common : List Node) (n : Node)
    (xs ys : List Node) :
    f.comparePaths above (common ++ n :: xs) (common ++ n :: ys)
      = f.comparePaths (some n) xs ys := by
  induction common generalizing above with
  | nil => simp only [List.nil_append, comparePaths, if_true]
  | cons m common ih => simp only [List.cons_append, comparePaths, if_true, ih]

theorem path_eq (n : Node) : f.path n = (f.ancestors n).reverse ++ [n] := by
  rw [path, chain, List.reverse_cons]

theorem compareOrder_of_paths {a b n : Node} {xs ys : List Node}
    (ha : f.path a = f.path n ++ xs) (hb : f.path b = f.path n ++ ys) :
    f.compareOrder a b = f.comparePaths (some n) xs ys := by
  rw [compareOrder, ha, hb, path_eq, List.append_assoc, List.append_assoc]
  exact f.comparePaths_append none _ n xs ys

/-! ## Trees apart -/

theorem within_top (f : Forest) (n : Node) : f.Within (f.top n) n := by
  unfold top
  cases h : (f.ancestors n).getLast? with
  | none => exact .refl f n
  | some t => exact .inr (List.mem_of_getLast? h)

theorem top_of_parent (wf : f.WellFormed) {n p : Node} (h : f.parent n = some p) :
    f.top n = f.top p := by
  rw [top, wf.ancestors_of_parent h, List.getLast?_cons, Option.getD_some, top]

/-- The top of a tree has no parent. -/
theorem parent_top (wf : f.WellFormed) (n : Node) : f.parent (f.top n) = none := by
  induction n using wf.up_ends.induction with
  | _ n ih =>
    cases hp : f.parent n with
    | none =>
      rw [top, ancestors_of_top hp]
      exact hp
    | some p =>
      rw [top_of_parent wf hp]
      exact ih p hp

/-- A path comes from the top of the tree. -/
theorem path_eq_top_cons (f : Forest) (n : Node) : ∃ xs, f.path n = f.top n :: xs := by
  unfold top
  rw [path_eq]
  cases h : (f.ancestors n).getLast? with
  | none => exact ⟨[], by rw [List.getLast?_eq_none_iff.mp h]; rfl⟩
  | some t =>
    obtain ⟨init, e⟩ := List.getLast?_eq_some_iff.mp h
    exact ⟨init.reverse ++ [n], by rw [e, List.reverse_concat]; rfl⟩

/-- Nodes of different trees are in no order. -/
theorem compareOrder_of_top_ne {a b : Node} (h : f.top a ≠ f.top b) :
    f.compareOrder a b = .error (.argument .differentTrees) := by
  obtain ⟨xs, ea⟩ := f.path_eq_top_cons a
  obtain ⟨ys, eb⟩ := f.path_eq_top_cons b
  rw [compareOrder, ea, eb, comparePaths, if_neg h]

namespace WellFormed

variable (wf : f.WellFormed)

include wf

theorem path_of_parent {n p : Node} (h : f.parent n = some p) : f.path n = f.path p ++ [n] := by
  rw [path_eq, wf.ancestors_of_parent h, List.reverse_cons, ← path_eq]

/-- The path of a node goes through every node above it. -/
theorem path_of_within {r n : Node} (h : f.Within r n) : ∃ xs, f.path n = f.path r ++ xs := by
  rcases h with rfl | h
  · exact ⟨[], (List.append_nil _).symm⟩
  · obtain ⟨near, e⟩ := wf.ancestors_append h
    refine ⟨near.reverse ++ [n], ?_⟩
    rw [path_eq, e, path_eq]
    simp only [List.reverse_append, List.reverse_cons, List.append_assoc, List.cons_append,
      List.nil_append]

theorem path_through_child {p c n : Node} (hc : c ∈ f.children p) (h : f.Within c n) :
    ∃ xs, f.path n = f.path p ++ c :: xs := by
  obtain ⟨xs, e⟩ := wf.path_of_within h
  refine ⟨xs, ?_⟩
  rw [e, wf.path_of_parent (wf.parent_of_mem hc), List.append_assoc, List.singleton_append]

/-! ## Order in a subtree -/

/-- An ancestor is earlier. -/
theorem compareOrder_of_above {a n : Node} (h : a ∈ f.ancestors n) :
    f.compareOrder a n = .ok .lt := by
  obtain ⟨c, hc, hw⟩ := wf.exists_child_within h
  obtain ⟨xs, e⟩ := wf.path_through_child hc hw
  rw [compareOrder_of_paths (List.append_nil _).symm e, comparePaths]

/-- The subtree of an earlier sibling is earlier. -/
theorem compareOrder_of_siblings {p c c' a b : Node} {left mid right : List Node}
    (h : f.children p = left ++ c :: (mid ++ c' :: right)) (ha : f.Within c a)
    (hb : f.Within c' b) : f.compareOrder a b = .ok .lt := by
  have hnd : (left ++ c :: (mid ++ c' :: right)).Nodup := h ▸ wf.nodup_children p
  have hi : (f.children p).idxOf? c = some left.length := by
    rw [h]
    exact idxOf?_of_nodup hnd
  have hj : (f.children p).idxOf? c' = some (left ++ c :: mid).length := by
    have e : left ++ c :: (mid ++ c' :: right) = (left ++ c :: mid) ++ c' :: right := by
      rw [List.append_assoc, List.cons_append]
    rw [h, e]
    exact idxOf?_of_nodup (e ▸ hnd)
  have hlt : left.length < (left ++ c :: mid).length := by
    rw [List.length_append, List.length_cons]
    omega
  have hne : c ≠ c' := by
    rintro rfl
    rw [hi, Option.some.injEq] at hj
    omega
  obtain ⟨xs, ea⟩ := wf.path_through_child (h ▸ List.mem_append_right _ List.mem_cons_self) ha
  obtain ⟨ys, eb⟩ := wf.path_through_child
    (h ▸ List.mem_append_right _
      (List.mem_cons_of_mem _ (List.mem_append_right _ List.mem_cons_self))) hb
  rw [compareOrder_of_paths ea eb, comparePaths, if_neg hne]
  simp only [hi, hj]
  exact congrArg Except.ok (Nat.compare_eq_lt.mpr hlt)

theorem mem_ancestors_of_within_child {p c n : Node} (hc : c ∈ f.children p)
    (h : f.Within c n) : p ∈ f.ancestors n := by
  have hp : p ∈ f.ancestors c := wf.mem_ancestors_iff.mpr ⟨p, wf.parent_of_mem hc, .refl f p⟩
  rcases h with rfl | h
  · exact hp
  · exact wf.ancestors_trans hp h

/-- **The list of a subtree is in document order.** -/
theorem pairwise_preorder {r : Node} (hr : f.Has r) :
    (f.preorder r).Pairwise fun a b => f.compareOrder a b = .ok .lt := by
  induction r using wf.induction_down with
  | step r ih =>
    rw [wf.preorder_eq hr, List.pairwise_cons]
    refine ⟨fun n hn => ?_, ?_⟩
    · obtain ⟨c, hc, hcn⟩ := List.mem_flatMap.mp hn
      have hw := (wf.mem_preorder_iff (wf.has_child hc)).mp hcn
      exact wf.compareOrder_of_above (wf.mem_ancestors_of_within_child hc hw)
    · rw [List.pairwise_flatMap]
      refine ⟨fun c hc => ih c hc (wf.has_child hc), ?_⟩
      rw [List.pairwise_iff_forall_sublist]
      intro c c' hs a ha b hb
      -- two children in the order of the list, with what lies around them
      obtain ⟨front, back, e, hc, hc'⟩ := List.cons_sublist_iff.mp hs
      rw [List.singleton_sublist] at hc'
      obtain ⟨left, mid, rfl⟩ := List.append_of_mem hc
      obtain ⟨mid', right, rfl⟩ := List.append_of_mem hc'
      have e' : f.children r = left ++ c :: ((mid ++ mid') ++ c' :: right) := by
        rw [e]
        simp only [List.append_assoc, List.cons_append]
      have hmem : ∀ x ∈ [c, c'], f.Has x := fun x hx => wf.has_child (hs.subset hx)
      exact wf.compareOrder_of_siblings e'
        ((wf.mem_preorder_iff (hmem c List.mem_cons_self)).mp ha)
        ((wf.mem_preorder_iff (hmem c' (List.mem_cons_of_mem _ List.mem_cons_self))).mp hb)

/-- **A subtree lists no node twice.** -/
theorem nodup_preorder {r : Node} (hr : f.Has r) : (f.preorder r).Nodup :=
  nodup_of_pairwise compareOrder_asymm (wf.pairwise_preorder hr)

/-! ## Order read off the list -/

section Split

variable {r n : Node} {before after : List Node} (hr : f.Has r)
  (h : f.preorder r = before ++ n :: after)

include hr h

theorem compareOrder_of_after {m : Node} (hm : m ∈ after) : f.compareOrder n m = .ok .lt := by
  have hp := wf.pairwise_preorder hr
  rw [h] at hp
  exact ((mem_right_iff_of_pairwise compareOrder_asymm hp).mp hm).2

theorem compareOrder_of_before {m : Node} (hm : m ∈ before) : f.compareOrder m n = .ok .lt := by
  have hp := wf.pairwise_preorder hr
  rw [h] at hp
  exact ((mem_left_iff_of_pairwise compareOrder_asymm hp).mp hm).2

/-- What is later than a node is behind it in the list. -/
theorem mem_after_of_compareOrder {m : Node} (hm : f.Within r m)
    (hlt : f.compareOrder n m = .ok .lt) : m ∈ after := by
  have hp := wf.pairwise_preorder hr
  have hmem := (wf.mem_preorder_iff hr).mpr hm
  rw [h] at hp hmem
  exact (mem_right_iff_of_pairwise compareOrder_asymm hp).mpr ⟨hmem, hlt⟩

/-- What is earlier than a node is in front of it in the list. -/
theorem mem_before_of_compareOrder {m : Node} (hm : f.Within r m)
    (hlt : f.compareOrder m n = .ok .lt) : m ∈ before := by
  have hp := wf.pairwise_preorder hr
  have hmem := (wf.mem_preorder_iff hr).mpr hm
  rw [h] at hp hmem
  exact (mem_left_iff_of_pairwise compareOrder_asymm hp).mpr ⟨hmem, hlt⟩

theorem not_mem_before : n ∉ before := by
  have hnd := wf.nodup_preorder hr
  rw [h] at hnd
  exact (not_mem_beside_of_nodup hnd).1

end Split

/-- Two nodes of one tree are one node, or one is earlier. -/
theorem compareOrder_total {r a b : Node} (hr : f.Has r) (ha : f.Within r a)
    (hb : f.Within r b) :
    a = b ∨ f.compareOrder a b = .ok .lt ∨ f.compareOrder b a = .ok .lt := by
  obtain ⟨before, after, e⟩ := List.append_of_mem ((wf.mem_preorder_iff hr).mpr ha)
  have hb' := (wf.mem_preorder_iff hr).mpr hb
  rw [e, List.mem_append, List.mem_cons] at hb'
  rcases hb' with hb' | rfl | hb'
  · exact Or.inr (Or.inr (wf.compareOrder_of_before hr e hb'))
  · exact Or.inl rfl
  · exact Or.inr (Or.inl (wf.compareOrder_of_after hr e hb'))

end WellFormed

end TreePointer.Forest
