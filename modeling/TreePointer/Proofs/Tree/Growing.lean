import TreePointer.Proofs.Tree.Editing
import TreePointer.Proofs.Tree.Walk

/-!
# New nodes below old ones

A record that is added and then inserted somewhere becomes one more child of its parent; all else
stays as it was. What is made of such insertions is known link by link.

* `Grown`: one more child, and nothing else.
* `insertBefore_push`: inserting a new node makes the forest grow by it.
-/

namespace TreePointer.Forest

variable {f g : Forest} {p x : Node} {left right : List Node} {r : Record}

/-- The forest has one more node than another, a child of `p` between its children `left` and
`right`. -/
structure Grown (f g : Forest) (p x : Node) (left right : List Node) (r : Record) : Prop where
  wellFormed : g.WellFormed
  has_iff : ∀ n, g.Has n ↔ f.Has n ∨ n = x
  fresh_eq : x = f.fresh
  children_eq : f.children p = left ++ right
  content_new : g.content x = r
  content_old : ∀ n, n ≠ x → g.content n = f.content n
  parent_eq : ∀ n, g.parent n = if n = x then some p else f.parent n
  child_eq : ∀ n, g.children n = if n = p then left ++ x :: right else f.children n

/-- A new node has no children. -/
theorem Grown.children_new (hp : f.Has p) (h : Grown f g p x left right r) : g.children x = [] := by
  have hne : x ≠ p := h.fresh_eq ▸ hp.ne_fresh.symm
  rw [h.child_eq, if_neg hne, h.fresh_eq, children_of_not_has f.not_has_fresh]

theorem detach_of_top {n : Node} (h : f.parent n = none) : f.detach n = f := by
  rw [detach, h]

theorem insertIdx_append {α : Type} (xs ys : List α) (a : α) :
    (xs ++ ys).insertIdx xs.length a = xs ++ a :: ys := by
  induction xs with
  | nil => exact List.insertIdx_zero
  | cons x xs ih =>
    rw [List.cons_append, List.length_cons, List.insertIdx_succ_cons, ih, List.cons_append]

theorem slot?_push (hc : r.children = []) (reference : Option Node) :
    (f.push r).1.slot? p reference = f.slot? p reference := by
  unfold slot?
  rw [children_push hc]

/-- **Inserting a new node** makes the forest grow by it. -/
theorem insertBefore_push (wf : f.WellFormed) (hparent : r.parent = none) (hchildren : r.children = [])
    (hp : f.Has p) (hk : (f.kind p).isContainer = true) (reference : Option Node)
    (href : reference ≠ some f.fresh) (hsplit : f.children p = left ++ right)
    (hslot : f.slot? p reference = some left.length) :
    ∃ g, (f.push r).1.insertBefore p f.fresh reference = (.ok (), g) ∧
      Grown f g p f.fresh left right r := by
  have hne : p ≠ f.fresh := hp.ne_fresh
  have wf₁ := wf.push hparent hchildren
  have hp₁ : (f.push r).1.Has p := (has_push r).mpr (Or.inl hp)
  have hx₁ : (f.push r).1.Has f.fresh := (has_push r).mpr (Or.inr rfl)
  have hk₁ : ((f.push r).1.kind p).isContainer = true := by
    rw [kind, record_push_of_ne r hne]
    exact hk
  have hleaf : (f.push r).1.children f.fresh = [] := by
    rw [children, record_push_fresh, hchildren]
  have htop : (f.push r).1.parent f.fresh = none := by rw [parent, record_push_fresh, hparent]
  -- nothing is below a node without children
  have hout : ¬ (f.push r).1.Within f.fresh p := by
    rintro (h | h)
    · exact hne h
    · obtain ⟨c, hc, -⟩ := wf₁.exists_child_within h
      rw [hleaf] at hc
      cases hc
  have hslot₁ : ((f.push r).1.detach f.fresh).slot? p reference = some left.length := by
    rw [detach_of_top htop, slot?_push hchildren, hslot]
  have hi : left.length ≤ ((f.push r).1.children p).length := by
    rw [children_push hchildren, hsplit, List.length_append]
    exact Nat.le_add_right _ _
  refine ⟨_, insertBefore_eq hk₁ hout href hslot₁, ?_⟩
  rw [detach_of_top htop]
  refine ⟨wf₁.attach hp₁ hx₁ hk₁ htop hout hi, fun n => ?_, rfl, hsplit, ?_, fun n hn => ?_,
    fun n => ?_, fun n => ?_⟩
  · rw [has_of_size_eq (size_attach ..), has_push]
  · rw [content_attach hp₁ hx₁, content, record_push_fresh]
    cases r
    cases hparent
    cases hchildren
    rfl
  · rw [content_attach hp₁ hx₁, content, record_push_of_ne r hn, content]
  · rw [parent_attach hp₁ hx₁, parent_push hparent]
  · rw [children_attach hp₁ hx₁, children_push hchildren]
    by_cases hn : n = p
    · rw [if_pos hn, if_pos hn, hn, hsplit, insertIdx_append]
    · rw [if_neg hn, if_neg hn]

/-- The slot before the first of some children, or behind all of them. -/
theorem slot?_head (wf : f.WellFormed) (h : f.children p = left ++ right) :
    f.slot? p right.head? = some left.length := by
  cases right with
  | nil => rw [List.head?_nil, slot?, h, List.append_nil]
  | cons c cs =>
    rw [List.head?_cons, slot?, h]
    exact idxOf?_of_nodup (h ▸ wf.nodup_children p)

theorem ne_fresh_of_head (wf : f.WellFormed) (h : f.children p = left ++ right) :
    right.head? ≠ some f.fresh := by
  intro e
  have hmem : f.fresh ∈ f.children p := h ▸ List.mem_append_right _ (List.mem_of_head? e)
  exact (wf.has_child hmem).ne_fresh rfl

end TreePointer.Forest
