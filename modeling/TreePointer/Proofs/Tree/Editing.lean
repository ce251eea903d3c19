import TreePointer.Forest.Edit
import TreePointer.Proofs.Tree.Descent

/-!
# What edits do to a forest

Every edit is made of a few small ones: a record is added, a node is detached from its parent, a
node without parent is attached to one, data or attributes of a node are set. For each of them it is
said what becomes of the parent, the child list and the content of every node, and that links and
child lists still agree.

* `WellFormed.push`, `WellFormed.detach`, `WellFormed.attach`, `WellFormed.of_links`: the small edits
  keep a forest well formed.
* `record_detach`: taking a node from its parent changes its link and that child list, in any
  forest.
* `insertBefore_eq`: an insertion that is allowed is a detachment and an attachment.
* `WellFormed.insertBefore`: so is a forest after an insertion, whether it failed or not.
-/

namespace TreePointer.Forest

variable {f g : Forest}

/-- What is known about a node apart from its links. -/
def content (f : Forest) (n : Node) : Record :=
  { f.record n with parent := none, children := [] }

theorem kind_eq_content (f : Forest) (n : Node) : f.kind n = (f.content n).kind := rfl

theorem name_eq_content (f : Forest) (n : Node) : f.name n = (f.content n).name := rfl

theorem value_eq_content (f : Forest) (n : Node) : f.value n = (f.content n).value := rfl

theorem attributes_eq_content (f : Forest) (n : Node) :
    f.attributes n = (f.content n).attributes := rfl

theorem has_of_size_eq (h : g.size = f.size) {n : Node} : g.Has n ↔ f.Has n := by
  rw [Has, Has, h]

/-! ## Changing a record -/

/-- A change that makes nothing of an empty document may be made at any place, in the table or
not. -/
theorem record_modify_of_bare (f : Forest) (n : Node) {change : Record → Record}
    (h : change (.bare .document) = .bare .document) (m : Node) :
    (f.modify n change).record m = if m = n then change (f.record m) else f.record m := by
  by_cases hn : f.Has n
  · exact record_modify hn change m
  · have hnone : f.records[n.index]? = none := Array.getElem?_eq_none (Nat.le_of_not_lt hn)
    split
    · next e =>
      rw [e, modify, record, record, Array.getElem?_modify, if_pos rfl, hnone, Option.map_none,
        Option.getD_none, h]
    · next e =>
      have hi : n.index ≠ m.index := fun hi => e (by cases n; cases m; cases hi; rfl)
      rw [modify, record, record, Array.getElem?_modify, if_neg hi]

/-- The links upwards do not change with a child list. -/
theorem parent_modify {p : Node} (h : f.Has p) (c : Record → List Node) (m : Node) :
    (f.modify p fun r => { r with children := c r }).parent m = f.parent m := by
  rw [parent, record_modify h]
  split <;> rfl

section SetParent

variable {n : Node} (h : f.Has n) (p : Option Node) (m : Node)

include h

theorem parent_setParent : (f.setParent p n).parent m = if m = n then p else f.parent m := by
  rw [parent, setParent, record_modify h]
  by_cases hm : m = n
  · rw [if_pos hm, if_pos hm]
  · rw [if_neg hm, if_neg hm, parent]

theorem children_setParent : (f.setParent p n).children m = f.children m := by
  rw [children, setParent, record_modify h]
  split <;> rfl

theorem content_setParent : (f.setParent p n).content m = f.content m := by
  rw [content, setParent, record_modify h]
  split <;> rfl

end SetParent

/-! ## Adding a record -/

section Push

variable (r : Record)

theorem has_push {n : Node} : (f.push r).1.Has n ↔ f.Has n ∨ n = f.fresh := by
  obtain ⟨i⟩ := n
  simp only [push, Has, size, fresh, Array.size_push, Node.mk.injEq]
  omega

theorem not_has_fresh (f : Forest) : ¬ f.Has f.fresh := Nat.lt_irrefl f.size

theorem Has.ne_fresh {n : Node} (h : f.Has n) : n ≠ f.fresh := by
  rintro rfl
  exact f.not_has_fresh h

theorem record_push_of_ne {n : Node} (h : n ≠ f.fresh) : (f.push r).1.record n = f.record n := by
  by_cases hn : f.Has n
  · exact record_push_old hn r
  · have hnew : ¬ (f.push r).1.Has n := fun hnew => (has_push r).mp hnew |>.elim hn h
    rw [record, record, Array.getElem?_eq_none (Nat.le_of_not_lt hn),
      Array.getElem?_eq_none (Nat.le_of_not_lt hnew)]

theorem record_push_fresh : (f.push r).1.record f.fresh = r := record_push_new f r

variable {r}

theorem children_push (hc : r.children = []) (n : Node) :
    (f.push r).1.children n = f.children n := by
  by_cases hn : n = f.fresh
  · rw [hn, children, record_push_fresh, hc, children_of_not_has f.not_has_fresh]
  · rw [children, record_push_of_ne r hn, children]

theorem parent_push (hp : r.parent = none) (n : Node) : (f.push r).1.parent n = f.parent n := by
  by_cases hn : n = f.fresh
  · rw [hn, parent, record_push_fresh, hp, parent_of_not_has f.not_has_fresh]
  · rw [parent, record_push_of_ne r hn, parent]

/-- A record without links is a tree of its own. -/
theorem WellFormed.push (wf : f.WellFormed) (hp : r.parent = none) (hc : r.children = []) :
    (f.push r).1.WellFormed := by
  refine ⟨fun n p h => ?_, fun p c => ?_, fun p => ?_, ?_, fun p c h => ?_⟩
  · rw [parent_push hp] at h
    exact (has_push r).mpr (Or.inl (wf.has_parent n p h))
  · rw [children_push hc, parent_push hp]
    exact wf.mem_children_iff p c
  · rw [children_push hc]
    exact wf.nodup_children p
  · exact Subrelation.wf (fun {p n} h => (parent_push hp n).symm.trans h) wf.up_ends
  · rw [children_push hc] at h
    rw [kind, record_push_of_ne r (wf.has_of_mem_children h).ne_fresh]
    exact wf.container_of_mem p c h

end Push

/-- Links and kinds decide whether a forest is well formed. -/
theorem WellFormed.of_links (wf : f.WellFormed) (hs : g.size = f.size)
    (hp : ∀ n, g.parent n = f.parent n) (hc : ∀ n, g.children n = f.children n)
    (hk : ∀ n, g.kind n = f.kind n) : g.WellFormed := by
  refine ⟨fun n p h => ?_, fun p c => ?_, fun p => ?_, ?_, fun p c h => ?_⟩
  · exact (has_of_size_eq hs).mpr (wf.has_parent n p ((hp n).symm.trans h))
  · rw [hc, hp]
    exact wf.mem_children_iff p c
  · rw [hc]
    exact wf.nodup_children p
  · exact Subrelation.wf (fun {p n} h => (hp n).symm.trans h) wf.up_ends
  · rw [hc] at h
    rw [hk]
    exact wf.container_of_mem p c h

/-! ## Detaching -/

@[simp] theorem size_detach (f : Forest) (n : Node) : (f.detach n).size = f.size := by
  unfold detach setParent
  split
  · rw [size_modify, size_modify]
  · rfl

theorem filter_bne_of_not_mem {n : Node} {ns : List Node} (h : n ∉ ns) :
    ns.filter (· != n) = ns := by
  refine List.filter_eq_self.mpr fun c hc => ?_
  rw [bne_iff_ne]
  rintro rfl
  exact h hc

/-- **Taking a node from its parent** changes two things: the node has no parent, and the parent
does not list it. -/
theorem record_detach (f : Forest) (n m : Node) :
    (f.detach n).record m =
      { f.record m with
        parent := if m = n then none else f.parent m
        children := if f.parent n = some m then (f.children m).filter (· != n)
          else f.children m } := by
  unfold detach
  split
  · next p hp =>
    have hm : (some p = some m) = (m = p) := by rw [Option.some.injEq, eq_iff_iff, eq_comm]
    rw [setParent, record_modify_of_bare _ n rfl, record_modify_of_bare _ p rfl, hp]
    simp only [hm]
    by_cases hmn : m = n
    · by_cases hmp : m = p
      · simp only [if_pos hmn, if_pos hmp, children]
      · simp only [if_pos hmn, if_neg hmp, children]
    · by_cases hmp : m = p
      · simp only [if_neg hmn, if_pos hmp, children, parent]
      · simp only [if_neg hmn, if_neg hmp, children, parent]
  · next hp =>
    have hm : (if m = n then none else f.parent m) = f.parent m := by
      split
      · next e => rw [e, hp]
      · rfl
    rw [hm, hp, if_neg (Option.some_ne_none m).symm]
    rfl

theorem parent_of_detach (f : Forest) (n m : Node) :
    (f.detach n).parent m = if m = n then none else f.parent m := by
  rw [parent, record_detach]

theorem children_of_detach (f : Forest) (n m : Node) :
    (f.detach n).children m
      = if f.parent n = some m then (f.children m).filter (· != n) else f.children m := by
  rw [children, record_detach]

theorem content_of_detach (f : Forest) (n m : Node) : (f.detach n).content m = f.content m := by
  rw [content, record_detach, content]

/-- If links and child lists agree, no other node lists the one that was taken away. -/
theorem children_detach (wf : f.WellFormed) (n m : Node) :
    (f.detach n).children m = (f.children m).filter (· != n) := by
  rw [children_of_detach]
  split
  · rfl
  · next hp =>
    rw [filter_bne_of_not_mem]
    exact fun hmem => hp (wf.parent_of_mem hmem)

theorem WellFormed.detach (wf : f.WellFormed) (n : Node) : (f.detach n).WellFormed := by
  refine ⟨fun m p h => ?_, fun p c => ?_, fun p => ?_, ?_, fun p c h => ?_⟩
  · rw [parent_of_detach, Option.ite_none_left_eq_some] at h
    exact (has_of_size_eq (size_detach f n)).mpr (wf.has_parent m p h.2)
  · rw [children_detach wf, parent_of_detach, List.mem_filter, Option.ite_none_left_eq_some,
      wf.mem_children_iff, and_comm, bne_iff_ne]
  · rw [children_detach wf]
    exact (wf.nodup_children p).filter _
  · refine Subrelation.wf (fun {p m} h => ?_) wf.up_ends
    rw [parent_of_detach, Option.ite_none_left_eq_some] at h
    exact h.2
  · rw [children_detach wf, List.mem_filter] at h
    rw [kind_eq_content, content_of_detach, ← kind_eq_content]
    exact wf.container_of_mem p c h.1

/-! ## Attaching -/

@[simp] theorem size_attach (f : Forest) (p n : Node) (i : Nat) : (f.attach p n i).size = f.size := by
  rw [attach, setParent, size_modify, size_modify]

section Attach

variable {p n : Node} (hp : f.Has p) (hn : f.Has n) (i : Nat) (m : Node)

include hp hn

theorem parent_attach : (f.attach p n i).parent m = if m = n then some p else f.parent m := by
  rw [attach, parent_setParent ((has_of_size_eq (size_modify ..)).mpr hn), parent_modify hp]

theorem children_attach :
    (f.attach p n i).children m = if m = p then (f.children m).insertIdx i n else f.children m := by
  rw [attach, children_setParent ((has_of_size_eq (size_modify ..)).mpr hn), children,
    record_modify hp]
  by_cases hm : m = p
  · rw [if_pos hm, if_pos hm, children]
  · rw [if_neg hm, if_neg hm, children]

theorem content_attach : (f.attach p n i).content m = f.content m := by
  rw [attach, content_setParent ((has_of_size_eq (size_modify ..)).mpr hn), content,
    record_modify hp]
  split <;> rfl

end Attach

/-- Parents do not run in a circle once a node was attached outside its own subtree. -/
theorem WellFormed.up_ends_attach {p n : Node} (wf : f.WellFormed) (hp : f.Has p) (hn : f.Has n)
    (hout : ¬ f.Within n p) (i : Nat) :
    WellFounded fun q m => (f.attach p n i).parent m = some q := by
  have hparent := parent_attach hp hn i
  -- first the nodes outside the subtree, then the node, then what is below it
  have houtside : ∀ m, ¬ f.Within n m → Acc (fun q m => (f.attach p n i).parent m = some q) m := by
    intro m
    induction m using wf.up_ends.induction with
    | _ m ih =>
      intro hm
      refine ⟨m, fun q hq => ?_⟩
      rw [hparent, if_neg fun e => hm (Or.inl e)] at hq
      exact ih q hq fun hw => hm (Or.inr (wf.mem_ancestors_iff.mpr ⟨q, hq, hw⟩))
  refine ⟨fun m => ?_⟩
  induction m using wf.up_ends.induction with
  | _ m ih =>
    refine ⟨m, fun q hq => ?_⟩
    rw [hparent] at hq
    by_cases hm : m = n
    · rw [if_pos hm, Option.some.injEq] at hq
      exact hq ▸ houtside p hout
    · rw [if_neg hm] at hq
      exact ih q hq

/-- Child lists and parents agree once a node without parent was attached. -/
theorem WellFormed.mem_children_attach {p n : Node} {i : Nat} (wf : f.WellFormed) (hp : f.Has p)
    (hn : f.Has n) (hroot : f.parent n = none) (hi : i ≤ (f.children p).length) (q c : Node) :
    c ∈ (f.attach p n i).children q ↔ (f.attach p n i).parent c = some q := by
  rw [children_attach hp hn, parent_attach hp hn]
  by_cases hq : q = p
  · rw [if_pos hq, List.mem_insertIdx (hq ▸ hi), wf.mem_children_iff, hq]
    by_cases hc : c = n
    · simp [hc]
    · simp [hc]
  · rw [if_neg hq, wf.mem_children_iff]
    by_cases hc : c = n
    · rw [if_pos hc, hc, hroot, Option.some.injEq]
      constructor
      · intro h
        cases h
      · intro h
        exact absurd h.symm hq
    · rw [if_neg hc]

/-- A node without parent may be attached to any container outside its own subtree. -/
theorem WellFormed.attach {p n : Node} {i : Nat} (wf : f.WellFormed) (hp : f.Has p) (hn : f.Has n)
    (hk : (f.kind p).isContainer = true) (hroot : f.parent n = none) (hout : ¬ f.Within n p)
    (hi : i ≤ (f.children p).length) : (f.attach p n i).WellFormed := by
  have hnot : ∀ q, n ∉ f.children q := by
    intro q hq
    rw [wf.mem_children_iff, hroot] at hq
    cases hq
  refine ⟨fun m q h => ?_, wf.mem_children_attach hp hn hroot hi, fun q => ?_,
    wf.up_ends_attach hp hn hout i, fun q c h => ?_⟩
  · rw [parent_attach hp hn] at h
    rw [has_of_size_eq (size_attach ..)]
    by_cases hm : m = n
    · rw [if_pos hm, Option.some.injEq] at h
      exact h ▸ hp
    · rw [if_neg hm] at h
      exact wf.has_parent m q h
  · rw [children_attach hp hn]
    by_cases hq : q = p
    · rw [if_pos hq, (List.perm_insertIdx n _ (hq ▸ hi)).nodup_iff, List.nodup_cons]
      exact ⟨hnot q, wf.nodup_children q⟩
    · rw [if_neg hq]
      exact wf.nodup_children q
  · rw [kind_eq_content, content_attach hp hn, ← kind_eq_content]
    rw [children_attach hp hn] at h
    by_cases hq : q = p
    · exact hq ▸ hk
    · rw [if_neg hq] at h
      exact wf.container_of_mem q c h

/-! ## Inserting -/

/-- An insertion that is allowed detaches the node and attaches it at the place of the
reference. -/
theorem insertBefore_eq {p child : Node} {reference : Option Node} {i : Nat}
    (hk : (f.kind p).isContainer = true) (hout : ¬ f.Within child p)
    (href : reference ≠ some child) (hslot : (f.detach child).slot? p reference = some i) :
    f.insertBefore p child reference = (.ok (), (f.detach child).attach p child i) := by
  have hsub : ¬ (child = p ∨ f.isAncestor child p = true) := by
    rintro (h | h)
    · exact hout (Or.inl h.symm)
    · exact hout (Or.inr (of_decide_eq_true h))
  rw [insertBefore, if_neg (not_not_intro hk), if_neg hsub, if_neg href]
  simp only [hslot]

theorem slot?_le {p : Node} {reference : Option Node} {i : Nat}
    (h : f.slot? p reference = some i) : i ≤ (f.children p).length := by
  unfold slot? at h
  cases reference with
  | none => exact Nat.le_of_eq (Option.some.inj h).symm
  | some r =>
    obtain ⟨hlt, -⟩ := List.idxOf?_eq_some_iff.mp h
    exact Nat.le_of_lt hlt

/-- What is below a node is not more once another node is detached. -/
theorem within_of_within_detach (wf : f.WellFormed) {n a m : Node}
    (h : (f.detach n).Within a m) : f.Within a m := by
  induction m using wf.up_ends.induction with
  | _ m ih =>
    rcases h with rfl | h
    · exact .refl f m
    · obtain ⟨p, hp, hw⟩ := (wf.detach n).mem_ancestors_iff.mp h
      rw [parent_of_detach, Option.ite_none_left_eq_some] at hp
      exact Or.inr (wf.mem_ancestors_iff.mpr ⟨p, hp.2, ih p hp.2 hw⟩)

/-- **Insertions keep a forest well formed**, whether they succeed or fail. -/
theorem WellFormed.insertBefore (wf : f.WellFormed) {p child : Node} (hp : f.Has p)
    (hc : f.Has child) (reference : Option Node) :
    (f.insertBefore p child reference).2.WellFormed := by
  unfold Forest.insertBefore
  by_cases hk : (f.kind p).isContainer = true
  · rw [if_neg (not_not_intro hk)]
    by_cases hsub : child = p ∨ f.isAncestor child p = true
    · rw [if_pos hsub]
      exact wf
    · rw [if_neg hsub]
      by_cases href : reference = some child
      · rw [if_pos href]
        exact wf
      · rw [if_neg href]
        cases hslot : (f.detach child).slot? p reference with
        | none =>
          simp only [hslot]
          exact wf.detach child
        | some i =>
          simp only [hslot]
          refine (wf.detach child).attach ((has_of_size_eq (size_detach ..)).mpr hp)
            ((has_of_size_eq (size_detach ..)).mpr hc) ?_ ?_ ?_ (slot?_le hslot)
          · rw [kind_eq_content, content_of_detach, ← kind_eq_content]
            exact hk
          · rw [parent_of_detach, if_pos rfl]
          · intro hw
            rcases within_of_within_detach wf hw with h | h
            · exact hsub (Or.inl h.symm)
            · exact hsub (Or.inr (decide_eq_true h))
  · rw [if_pos hk]
    exact wf

end TreePointer.Forest
