import TreePointer.Proofs.Tree.Check
import TreePointer.Proofs.Tree.Coordinates

/-!
# The boundaries of a tree are in a linear order

Seen from a node above it, a boundary is at an offset of that node or inside one of its children.
Two different boundaries of a tree are seen at different places from some node above both, and their
order is that of the places. So the order can be told without the coordinates of whole paths, and it
is known of a forest as soon as it is known what is seen from every node.

* `Boundary.SeenFrom`: the place at which a boundary is seen from a node.
* `WellFormed.compare_of_seen`, `WellFormed.exists_parting`: the order, from where it is decided.
* `WellFormed.compare_linear`: the order is total, antisymmetric and transitive, and a boundary is
  behind what is in the children before its offset and before what is in the others.
-/

namespace TreePointer

/-- The place at which a boundary is seen from a node: its offset in that node, or the child that it
lies in. A child is between the offsets before and after it, so children are at odd places and
offsets at even ones. -/
inductive Boundary.SeenFrom (f : Forest) (q : Node) : Boundary → Nat → Prop
  | offset (i : Nat) : SeenFrom f q ⟨q, i⟩ (2 * i)
  | child {b : Boundary} {c : Node} (mem : c ∈ f.children q) (within : f.Within c b.container) :
      SeenFrom f q b (2 * f.slot c + 1)

/-- Between boundaries of different containers one always comes out as the earlier one. -/
theorem Boundary.compareForward_ne_eq (f : Forest) (a b : Boundary) :
    a.compareForward f b ≠ .ok .eq := by
  unfold compareForward
  split
  · exact nofun
  · split
    · exact nofun
    · split
      · exact nofun
      · exact nofun

/-- Boundaries of different containers are not equal in order. -/
theorem Boundary.compare_ne_eq {f : Forest} {a b : Boundary} (h : a.container ≠ b.container) :
    a.compare f b ≠ .ok .eq := by
  intro heq
  rw [compare, if_neg h] at heq
  obtain ⟨o, -, heq⟩ := exists_of_bind heq
  cases o with
  | lt => exact compareForward_ne_eq f a b heq
  | eq => exact compareForward_ne_eq f a b heq
  | gt =>
    -- the answer is that of the boundaries in the other order, reversed
    obtain ⟨back, hback, heq⟩ := exists_of_bind heq
    cases back with
    | eq => exact compareForward_ne_eq f b a hback
    | lt => cases heq
    | gt => cases heq

/-- **Boundaries are equal in order** just if they are the same. -/
theorem Boundary.compare_eq_iff {f : Forest} {a b : Boundary} :
    a.compare f b = .ok .eq ↔ a = b := by
  constructor
  · intro h
    have hcontainer : a.container = b.container :=
      Decidable.not_not.mp fun hne => compare_ne_eq hne h
    rw [compare_same hcontainer, Except.ok.injEq, Nat.compare_eq_eq] at h
    cases a
    cases b
    cases hcontainer
    cases h
    rfl
  · rintro rfl
    exact compare_self f a

namespace Forest.WellFormed

variable {f : Forest} (wf : f.WellFormed) {q r : Node} {a b : Boundary} {k l : Nat}

include wf

/-! ## Where two boundaries part -/

theorem within_of_seen (h : b.SeenFrom f q k) : f.Within q b.container := by
  cases h with
  | offset i => exact .refl f q
  | child mem within => exact .inr (wf.mem_ancestors_of_within_child mem within)

/-- The coordinates of a boundary go on from those of a node with what is seen from there. -/
theorem coordinates_of_seen (h : b.SeenFrom f q k) :
    ∃ rest, f.coordinates b = (f.path q).map (fun n => 2 * f.slot n + 1) ++ k :: rest := by
  cases h with
  | offset i => exact ⟨[], coordinates_of_path (List.append_nil _).symm⟩
  | child mem within =>
    obtain ⟨xs, e⟩ := wf.path_through_child mem within
    exact ⟨_, coordinates_of_path e⟩

/-- **The order of two boundaries** is that of the places at which they are seen from a node. -/
theorem compare_of_seen (ha : a.SeenFrom f q k) (hb : b.SeenFrom f q l) (hne : k ≠ l) :
    a.compare f b = .ok (compare k l) := by
  obtain ⟨xs, ea⟩ := wf.coordinates_of_seen ha
  obtain ⟨ys, eb⟩ := wf.coordinates_of_seen hb
  rw [wf.compare_eq (wf.within_of_seen ha) (wf.within_of_seen hb), ea, eb, compare_append_left,
    compare_cons_of_ne hne]

/-- **Different boundaries** of a tree are seen at different places from some node. -/
theorem exists_parting (ha : f.Within r a.container) (hb : f.Within r b.container) (hne : a ≠ b) :
    ∃ q k l, a.SeenFrom f q k ∧ b.SeenFrom f q l ∧ k ≠ l := by
  obtain ⟨n, i⟩ := a
  obtain ⟨m, j⟩ := b
  rcases wf.within_or_fork ha hb with (e | h) | (e | h) | ⟨p, c, c', hc, hc', hcc, hn, hm⟩
  · cases e
    have hij : i ≠ j := fun e => hne (e ▸ rfl)
    exact ⟨_, _, _, .offset i, .offset j, by omega⟩
  · obtain ⟨c, hc, hw⟩ := wf.exists_child_within h
    exact ⟨_, _, _, .offset i, .child hc hw, by omega⟩
  · cases e
    have hij : i ≠ j := fun e => hne (e ▸ rfl)
    exact ⟨_, _, _, .offset i, .offset j, by omega⟩
  · obtain ⟨c, hc, hw⟩ := wf.exists_child_within h
    exact ⟨_, _, _, .child hc hw, .offset j, by omega⟩
  · have hslot : f.slot c ≠ f.slot c' := fun e => hcc (wf.slot_inj hc hc' e)
    exact ⟨_, _, _, .child hc hn, .child hc' hm, by omega⟩

/-- One boundary is before another one just if it is seen further ahead from some node. -/
theorem compare_lt_iff (ha : f.Within r a.container) (hb : f.Within r b.container) :
    a.compare f b = .ok .lt ↔ ∃ q k l, a.SeenFrom f q k ∧ b.SeenFrom f q l ∧ k < l := by
  constructor
  · intro h
    have hne : a ≠ b := by
      rintro rfl
      rw [Boundary.compare_self] at h
      cases h
    obtain ⟨q, k, l, hk, hl, hkl⟩ := wf.exists_parting ha hb hne
    rw [wf.compare_of_seen hk hl hkl, Except.ok.injEq, Nat.compare_eq_lt] at h
    exact ⟨q, k, l, hk, hl, h⟩
  · rintro ⟨q, k, l, hk, hl, hkl⟩
    rw [wf.compare_of_seen hk hl (Nat.ne_of_lt hkl), Nat.compare_eq_lt.mpr hkl]

/-- What lies in a child is before the offsets behind the child, and behind those before it. -/
theorem compare_child {n c : Node} {i : Nat} (hc : (f.children n)[k]? = some c)
    (hb : f.Within c b.container) :
    (Boundary.mk n i).compare f b = .ok (if k < i then .gt else .lt) := by
  have hmem := List.mem_of_getElem? hc
  have hslot : f.slot c = k := by
    obtain ⟨hlt, hget⟩ := List.getElem?_eq_some_iff.mp hc
    have hsplit : f.children n = (f.children n).take k ++ c :: (f.children n).drop (k + 1) := by
      rw [← hget, List.getElem_cons_drop hlt, List.take_append_drop]
    rw [wf.slot_eq hsplit, List.length_take_of_le (Nat.le_of_lt hlt)]
  rw [wf.compare_of_seen (.offset i) (.child hmem hb) (by omega), hslot]
  split
  · rw [Nat.compare_eq_gt.mpr (by omega)]
  · rw [Nat.compare_eq_lt.mpr (by omega)]

/-! ## The order -/

/-- **The boundaries of a tree are in a linear order.** Any two of them can be compared, by which
only equal ones come out equal; in the other order the answer is reversed; and of three in a row the
first is as early against the third as the steps between them say. A boundary in a node is behind
everything inside the children before its offset and before everything inside the others. -/
theorem compare_linear (r : Node) :
    (∀ a b : Boundary, f.Within r a.container → f.Within r b.container →
      ∃ o, a.compare f b = .ok o ∧ b.compare f a = .ok o.swap ∧ (o = .eq ↔ a = b)) ∧
    (∀ a b c : Boundary, f.Within r a.container → f.Within r b.container →
      f.Within r c.container → ∀ o o', a.compare f b = .ok o → b.compare f c = .ok o' →
      o ≠ .gt → o' ≠ .gt → a.compare f c = .ok (o.then o')) ∧
    (∀ (n c : Node) (k : Nat) (b : Boundary), (f.children n)[k]? = some c →
      f.Within c b.container → ∀ i,
      (Boundary.mk n i).compare f b = .ok (if k < i then .gt else .lt)) := by
  refine ⟨fun a b ha hb => ?_, fun a b c ha hb hc o o' hab hbc ho ho' => ?_,
    fun n c k b hc hb i => wf.compare_child hc hb⟩
  · obtain ⟨o, h⟩ := wf.exists_compare ha hb
    refine ⟨o, h, wf.compare_swap ha hb h, ?_⟩
    rw [← Boundary.compare_eq_iff (f := f), h, Except.ok.injEq]
  · cases o with
    | lt => exact wf.compare_trans ha hb hc hab hbc ho'
    | eq =>
      cases Boundary.compare_eq_iff.mp hab
      exact hbc
    | gt => exact absurd rfl ho

end Forest.WellFormed

namespace Forest

/-- The tree `<r><a>one</a><b/></r>`. -/
def titled : Forest := ⟨#[
  { Record.bare .element with name := some (.plain "r"), children := [⟨1⟩, ⟨3⟩] },
  { Record.bare .element with
    name := some (.plain "a"), parent := some ⟨0⟩, children := [⟨2⟩] },
  { Record.bare .text with value := some "one", parent := some ⟨1⟩ },
  { Record.bare .element with name := some (.plain "b"), parent := some ⟨0⟩ }]⟩

/-- The end of the text is before the end of `a`, and both are before the place between `a` and
`b`. -/
theorem compare_linear_titled :
    titled.WellFormed ∧
      (∃ o, Boundary.compare titled ⟨⟨2⟩, 3⟩ ⟨⟨1⟩, 1⟩ = .ok o ∧
        Boundary.compare titled ⟨⟨1⟩, 1⟩ ⟨⟨2⟩, 3⟩ = .ok o.swap ∧
        (o = .eq ↔ (⟨⟨2⟩, 3⟩ : Boundary) = ⟨⟨1⟩, 1⟩)) ∧
      Boundary.compare titled ⟨⟨2⟩, 3⟩ ⟨⟨0⟩, 1⟩ = .ok .lt ∧
      Boundary.compare titled ⟨⟨0⟩, 1⟩ ⟨⟨2⟩, 3⟩ = .ok .gt := by
  have wf : titled.WellFormed := isWellFormed_iff.mp (by decide)
  obtain ⟨total, trans, inside⟩ := wf.compare_linear ⟨0⟩
  exact ⟨wf, total _ _ (by decide) (by decide),
    trans ⟨⟨2⟩, 3⟩ ⟨⟨1⟩, 1⟩ ⟨⟨0⟩, 1⟩ (by decide) (by decide) (by decide) .lt .lt
      rfl rfl (by decide) (by decide),
    inside ⟨0⟩ ⟨1⟩ 0 ⟨⟨2⟩, 3⟩ (by decide) (by decide) 1⟩

end Forest

end TreePointer
