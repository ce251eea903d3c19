import TreePointer.Proofs.Decoration.Quiet
import TreePointer.Proofs.Text.Moved
import TreePointer.Proofs.Tree.Linear

/-!
# Where boundaries are after some children were replaced

When a stretch of the children of a node is replaced, a boundary that is neither in that node nor in
a replaced one stays where it is. In the node itself the boundaries before the stretch keep their
offset, those behind it are moved on, and some next to it or in a replaced text may come to be in a
new child. A boundary before and one behind a replaced element may then stand for two places: next
to the wrapper and in it. The order of boundaries that were different is kept all the same.

* `Boundary.Moves`: where a boundary may come to be.
* `Parted`: a text became several; `places_moved`, `endOfText_moved`: what that means for the text
  of a node.
* `Shift`: what an edit has to provide. `Shift.compare_lt`: earlier boundaries stay earlier.
* `Shift.around`: the boundaries around a node move with it.
-/

namespace TreePointer

/-- Where a boundary may be once the children `old` of `p`, behind the children `left`, were
replaced by the children `new`. Where boundaries come to be that are moved into a new child is
given. -/
inductive Boundary.Moves (p : Node) (left old new cut : List Node)
    (into : Boundary → Boundary → Prop) : Boundary → Boundary → Prop
  | elsewhere {b : Boundary} (notParent : b.container ≠ p) (uncut : b.container ∉ cut) :
      Moves p left old new cut into b b
  | before {i : Nat} (le : i ≤ left.length) : Moves p left old new cut into ⟨p, i⟩ ⟨p, i⟩
  | behind (i : Nat) : Moves p left old new cut into ⟨p, left.length + old.length + i⟩
      ⟨p, left.length + new.length + i⟩
  | into {a b : Boundary} (moved : into a b) : Moves p left old new cut into a b

namespace Forest

variable {f g : Forest} {p q n : Node} {left old new right cut : List Node}
  {into : Boundary → Boundary → Prop} {a b a' b' : Boundary} {k l : Nat}

/-! ## Slots -/

namespace Replaced

variable (h : Replaced f g p left old new right) (wf : f.WellFormed)

include h wf

/-- The children before the stretch keep their slots. -/
theorem slot_left {c : Node} (hc : c ∈ left) :
    c ∈ f.children p ∧ c ∈ g.children p ∧ g.slot c = f.slot c ∧ f.slot c < left.length := by
  obtain ⟨xs, ys, rfl⟩ := List.append_of_mem hc
  have e : f.children p = xs ++ c :: (ys ++ (old ++ right)) := by
    rw [h.children_old, List.append_assoc, List.cons_append]
  have e' : g.children p = xs ++ c :: (ys ++ (new ++ right)) := by
    rw [h.children_new, List.append_assoc, List.cons_append]
  rw [wf.slot_eq e, h.wellFormed.slot_eq e', e, e', List.length_append, List.length_cons]
  refine ⟨List.mem_append_right _ List.mem_cons_self,
    List.mem_append_right _ List.mem_cons_self, rfl, by omega⟩

/-- The children behind the stretch are moved on. -/
theorem slot_right {c : Node} (hc : c ∈ right) :
    c ∈ f.children p ∧ c ∈ g.children p ∧ ∃ i, f.slot c = left.length + old.length + i ∧
      g.slot c = left.length + new.length + i := by
  obtain ⟨xs, ys, rfl⟩ := List.append_of_mem hc
  have e : f.children p = (left ++ (old ++ xs)) ++ c :: ys := by
    simp only [h.children_old, List.append_assoc]
  have e' : g.children p = (left ++ (new ++ xs)) ++ c :: ys := by
    simp only [h.children_new, List.append_assoc]
  rw [wf.slot_eq e, h.wellFormed.slot_eq e', e, e']
  simp only [List.length_append]
  exact ⟨List.mem_append_right _ List.mem_cons_self, List.mem_append_right _ List.mem_cons_self,
    xs.length, by omega, by omega⟩

omit wf in
/-- The new children are in the stretch. -/
theorem slot_new {c : Node} (hc : c ∈ new) :
    c ∈ g.children p ∧ left.length ≤ g.slot c ∧ g.slot c < left.length + new.length := by
  obtain ⟨xs, ys, rfl⟩ := List.append_of_mem hc
  have e' : g.children p = (left ++ xs) ++ c :: (ys ++ right) := by
    simp only [h.children_new, List.append_assoc, List.cons_append]
  rw [h.wellFormed.slot_eq e', e']
  simp only [List.length_append, List.length_cons]
  exact ⟨List.mem_append_right _ List.mem_cons_self, by omega, by omega⟩

/-- The replaced children were in the stretch. -/
theorem slot_old {c : Node} (hc : c ∈ old) :
    left.length ≤ f.slot c ∧ f.slot c < left.length + old.length := by
  obtain ⟨xs, ys, rfl⟩ := List.append_of_mem hc
  have e : f.children p = (left ++ xs) ++ c :: (ys ++ right) := by
    simp only [h.children_old, List.append_assoc, List.cons_append]
  rw [wf.slot_eq e]
  simp only [List.length_append, List.length_cons]
  omega

/-- The children of other nodes keep their slots. -/
theorem slot_elsewhere {c : Node} (hc : c ∈ f.children q) (hqp : q ≠ p) :
    c ∈ g.children q ∧ g.slot c = f.slot c := by
  have e := h.children_eq q (wf.has_of_mem_children hc) hqp
  obtain ⟨xs, ys, hsplit⟩ := List.append_of_mem hc
  rw [wf.slot_eq hsplit, h.wellFormed.slot_eq (e.trans hsplit), e]
  exact ⟨hc, rfl⟩

end Replaced

/-- What is below a node that was not cut stays below it. -/
theorem Unnoticed.within_of_within (h : Unnoticed f g p left old new right cut)
    (wf : f.WellFormed) {c : Node} (hc : c ∉ cut) (hw : f.Within c n) : g.Within c n := by
  rcases hw with rfl | hw
  · exact .refl g _
  · obtain ⟨m, hm, -⟩ := wf.exists_child_within hw
    exact h.within wf (wf.has_of_mem_children hm) (wf.not_isText_of_mem_children hm) (.inr hw)

/-! ## Texts in several parts -/

/-- The text nodes that are shown, node by node. -/
theorem WellFormed.shownTexts_eq (wf : f.WellFormed) (hn : f.Has n) :
    f.shownTexts n = (if f.isShown n then [n] else []) ++ (f.children n).flatMap f.shownTexts := by
  rw [shownTexts, wf.preorder_eq hn, List.filter_cons, List.filter_flatMap]
  split
  · rfl
  · rfl

/-- Texts are shown in their parts, if the replaced ones are. -/
theorem Unnoticed.shownTexts_eq (h : Unnoticed f g p left old new right cut) (wf : f.WellFormed)
    {parts : Node → List Node} (hparts : ∀ m, m ∉ cut → parts m = [m])
    (hnew : (∀ m ∈ old, m ∉ cut → g.shownTexts m = (f.shownTexts m).flatMap parts) →
      new.flatMap g.shownTexts = old.flatMap fun m => (f.shownTexts m).flatMap parts)
    (hn : f.Has n) (hcut : n ∉ cut) : g.shownTexts n = (f.shownTexts n).flatMap parts := by
  refine (h.replaced.flatMap_eq wf h.cut_old (F := fun m => (f.shownTexts m).flatMap parts)
    (fun m below => (if f.isShown m then [m] else []) ++ below)
    (fun m hm hmcut => ?_) (fun m hm hmcut => ?_) hnew n hn).2 hcut
  · rw [wf.shownTexts_eq hm, List.flatMap_append, List.flatMap_assoc]
    congr 1
    split
    · rw [List.flatMap_singleton, hparts m hmcut]
    · rfl
  · rw [h.replaced.wellFormed.shownTexts_eq (h.replaced.has m hm), h.isShown_eq wf hm hmcut]

/-- The text `t` became the texts `ts`. -/
structure Parted (f g : Forest) (M : Boundary → Boundary → Prop) (t : Node) (ts : List Node) :
    Prop where
  places : List.Forall₂ (Place.Moves M) (f.placesOf t) (ts.flatMap g.placesOf)
  last : ∃ t', ts.getLast? = some t' ∧ M ⟨t, f.length t⟩ ⟨t', g.length t'⟩

section Parts

variable {M : Boundary → Boundary → Prop} {parts : Node → List Node}
  (hshown : g.shownTexts n = (f.shownTexts n).flatMap parts)
  (hparts : ∀ t, f.isShown t = true → Parted f g M t (parts t))

include hshown hparts

/-- The characters of a node move with their texts. -/
theorem places_moved : List.Forall₂ (Place.Moves M) (f.places n) (g.places n) := by
  rw [places, places, hshown, List.flatMap_assoc]
  have hall : ∀ t ∈ f.shownTexts n, f.isShown t = true := fun t ht => (List.mem_filter.mp ht).2
  generalize f.shownTexts n = ts at hall
  induction ts with
  | nil => exact .nil
  | cons t ts ih =>
    rw [List.flatMap_cons, List.flatMap_cons]
    exact List.rel_append (hparts t (hall t List.mem_cons_self)).places
      (ih fun u hu => hall u (List.mem_cons_of_mem t hu))

/-- The end of the text of a node moves with the last text. -/
theorem endOfText_moved (hn : M ⟨n, 0⟩ ⟨n, 0⟩) : M (f.endOfText n) (g.endOfText n) := by
  unfold endOfText lastShown?
  rw [hshown]
  rcases List.eq_nil_or_concat' (f.shownTexts n) with e | ⟨ts, t, e⟩
  · rw [e]
    exact hn
  · have hmem : t ∈ f.shownTexts n := by
      rw [e]
      exact List.mem_append_right ts List.mem_cons_self
    obtain ⟨t', hlast, hm⟩ := (hparts t (List.mem_filter.mp hmem).2).last
    rw [e, List.getLast?_append, List.flatMap_append, List.getLast?_append,
      List.flatMap_singleton, hlast]
    exact hm

end Parts

/-! ## Edits that move boundaries -/

/-- Children were replaced without notice, and what is moved into new children stays in order. -/
structure Shift (f g : Forest) (p : Node) (left old new right cut : List Node)
    (into : Boundary → Boundary → Prop) : Prop where
  unnoticed : Unnoticed f g p left old new right cut
  new_ne_nil : new ≠ []
  /-- Only boundaries of cut texts, or next to the stretch, are moved into new children. -/
  into_new : ∀ {a b : Boundary}, into a b → b.container ∈ new ∧ (a.container ∈ cut ∨
    a.container = p ∧ left.length ≤ a.offset ∧ a.offset ≤ left.length + old.length)
  /-- What was in a replaced child is in a new one. -/
  old_within_new : ∀ {c : Node} {a b : Boundary}, c ∈ old → f.Within c a.container →
    a.Moves p left old new cut into b → ∃ x ∈ new, g.Within x b.container
  /-- Boundaries of the stretch that are moved into new children stay in order. -/
  stretch_lt : ∀ {a b a' b' : Boundary} {k l : Nat}, a.SeenFrom f p k → b.SeenFrom f p l →
    2 * left.length ≤ k → k < l → l ≤ 2 * (left.length + old.length) →
    a.Moves p left old new cut into a' →
    b.Moves p left old new cut into b' → (∃ x ∈ new, g.Within x a'.container) →
    (∃ x ∈ new, g.Within x b'.container) → a'.compare g b' = .ok .lt
  /-- Boundaries of a cut text stay in order. -/
  cut_lt : ∀ {t : Node} {i j : Nat} {a' b' : Boundary}, t ∈ cut → i < j → into ⟨t, i⟩ a' →
    into ⟨t, j⟩ b' → a'.compare g b' = .ok .lt
  /-- The boundaries around a replaced child move with it. -/
  around_old : ∀ {c : Node}, c ∈ old → c ∉ cut → ∃ q, c ∈ g.children q ∧
    Boundary.Moves p left old new cut into ⟨p, f.slot c⟩ ⟨q, g.slot c⟩ ∧
    Boundary.Moves p left old new cut into ⟨p, f.slot c + 1⟩ ⟨q, g.slot c + 1⟩
  /-- Texts are shown in their parts, whose boundaries have moved. -/
  texts : ∃ parts : Node → List Node,
    (∀ n, f.Has n → n ∉ cut → g.shownTexts n = (f.shownTexts n).flatMap parts) ∧
    ∀ t, f.isShown t = true →
      Parted f g (Boundary.Moves p left old new cut into) t (parts t)

namespace Shift

variable (h : Shift f g p left old new right cut into) (wf : f.WellFormed)

include h

theorem mem_old_of_mem_cut {t : Node} (ht : t ∈ cut) : t ∈ f.children p :=
  h.unnoticed.replaced.mem_old (h.unnoticed.cut_old t ht)

include wf

theorem parent_not_mem_cut : p ∉ cut :=
  fun hp => wf.ne_of_mem_children (h.mem_old_of_mem_cut hp) rfl

/-- A boundary stays below all nodes it was below. -/
theorem within {c : Node} (hc : c ∉ cut) (hm : a.Moves p left old new cut into b)
    (hw : f.Within c a.container) : g.Within c b.container := by
  cases hm with
  | elsewhere _ _ => exact h.unnoticed.within_of_within wf hc hw
  | before _ => exact h.unnoticed.within_of_within wf hc hw
  | behind _ => exact h.unnoticed.within_of_within wf hc hw
  | into moved =>
    obtain ⟨hnew, hfrom⟩ := h.into_new moved
    have hp : f.Within c p := by
      rcases hfrom with hcut | ⟨hp, -⟩
      · exact wf.within_parent hw (fun e => hc (e ▸ hcut))
          (wf.parent_of_mem (h.mem_old_of_mem_cut hcut))
      · exact hp ▸ hw
    exact h.unnoticed.replaced.wellFormed.within_child (h.unnoticed.within_of_within wf hc hp)
      (h.unnoticed.replaced.slot_new hnew).1

/-- Seen from other nodes a boundary stays where it was. -/
theorem seen_elsewhere (hqp : q ≠ p) (hqc : q ∉ cut) (hm : a.Moves p left old new cut into b)
    (hs : a.SeenFrom f q k) : b.SeenFrom g q k := by
  cases hs with
  | offset i =>
    cases hm with
    | elsewhere _ _ => exact .offset i
    | before _ => exact absurd rfl hqp
    | behind _ => exact absurd rfl hqp
    | into moved =>
      rcases (h.into_new moved).2 with hcut | ⟨hp, -⟩
      · exact absurd hcut hqc
      · exact absurd hp hqp
  | @child _ c mem within =>
    obtain ⟨hc, hslot⟩ := h.unnoticed.replaced.slot_elsewhere wf mem hqp
    -- a cut text is a child of `p` alone
    have hcut : c ∉ cut := by
      intro hcut
      have hp := wf.parent_of_mem (h.mem_old_of_mem_cut hcut)
      rw [wf.parent_of_mem mem, Option.some.injEq] at hp
      exact hqp hp
    rw [← hslot]
    exact .child hc (h.within wf hcut hm within)

/-- Seen from `p` a boundary stays where it was, or is moved on, or comes to be in a new child. -/
theorem seen_parent (hm : a.Moves p left old new cut into b) (hs : a.SeenFrom f p k) :
    ∃ k', b.SeenFrom g p k' ∧
      (k ≤ 2 * left.length ∧ k' = k ∨
      2 * left.length ≤ k ∧ k ≤ 2 * (left.length + old.length) ∧ 2 * left.length < k' ∧
        k' < 2 * (left.length + new.length) ∧ (∃ x ∈ new, g.Within x b.container) ∨
      2 * (left.length + old.length) ≤ k ∧ k' + 2 * old.length = k + 2 * new.length) := by
  have hr := h.unnoticed.replaced
  have hpc := h.parent_not_mem_cut wf
  have hnew : ∀ x ∈ new, g.Within x b.container → ∃ k', b.SeenFrom g p k' ∧
      2 * left.length < k' ∧ k' < 2 * (left.length + new.length) := by
    intro x hx hw
    obtain ⟨hxp, hle, hlt⟩ := hr.slot_new hx
    exact ⟨_, .child hxp hw, by omega, by omega⟩
  cases hs with
  | offset i =>
    cases hm with
    | elsewhere hp _ => exact absurd rfl hp
    | before le => exact ⟨_, .offset i, .inl ⟨by omega, rfl⟩⟩
    | behind j => exact ⟨_, .offset _, .inr (.inr ⟨by omega, by omega⟩)⟩
    | into moved =>
      obtain ⟨hx, hcut | ⟨-, hle, hle'⟩⟩ := h.into_new moved
      · exact absurd hcut hpc
      · obtain ⟨k', hk', hlo, hhi⟩ := hnew _ hx (.refl g _)
        exact ⟨k', hk', .inr (.inl ⟨by dsimp only at hle; omega, by dsimp only at hle'; omega, hlo,
          hhi, _, hx, .refl g _⟩)⟩
  | @child _ c mem within =>
    rw [hr.children_old, List.mem_append, List.mem_append] at mem
    rcases mem with hc | hc | hc
    · obtain ⟨-, hcg, hslot, hlt⟩ := hr.slot_left wf hc
      have hcut : c ∉ cut := fun e => hr.not_mem_left wf hc (h.unnoticed.cut_old c e)
      rw [← hslot]
      exact ⟨_, .child hcg (h.within wf hcut hm within), .inl ⟨by omega, rfl⟩⟩
    · obtain ⟨hle, hlt⟩ := hr.slot_old wf hc
      obtain ⟨x, hx, hw⟩ := h.old_within_new hc within hm
      obtain ⟨k', hk', hlo, hhi⟩ := hnew x hx hw
      exact ⟨k', hk', .inr (.inl ⟨by omega, by omega, hlo, hhi, x, hx, hw⟩)⟩
    · obtain ⟨-, hcg, i, hi, hi'⟩ := hr.slot_right wf hc
      have hcut : c ∉ cut := fun e => hr.not_mem_right wf hc (h.unnoticed.cut_old c e)
      exact ⟨_, .child hcg (h.within wf hcut hm within), .inr (.inr ⟨by omega, by omega⟩)⟩

/-- **Earlier boundaries stay earlier.** -/
theorem compare_lt {r : Node} (ha : f.Within r a.container) (hb : f.Within r b.container)
    (hm : a.Moves p left old new cut into a') (hm' : b.Moves p left old new cut into b')
    (hlt : a.compare f b = .ok .lt) : a'.compare g b' = .ok .lt := by
  have wf' := h.unnoticed.replaced.wellFormed
  obtain ⟨q, k, l, hk, hl, hkl⟩ := (wf.compare_lt_iff ha hb).mp hlt
  have hseen : ∀ {q k l : _}, a'.SeenFrom g q k → b'.SeenFrom g q l → k < l →
      a'.compare g b' = .ok .lt := fun hk hl hkl => by
    rw [wf'.compare_of_seen hk hl (Nat.ne_of_lt hkl), Nat.compare_eq_lt.mpr hkl]
  by_cases hqp : q = p
  · subst hqp
    have hpos := List.length_pos_iff.mpr h.new_ne_nil
    obtain ⟨k', hk', hcase⟩ := h.seen_parent wf hm hk
    obtain ⟨l', hl', hcase'⟩ := h.seen_parent wf hm' hl
    rcases hcase with hleft | ⟨hk₁, hk₂, hk₃, hk₄, hx⟩ | hright
    · exact hseen hk' hl' (by omega)
    · rcases hcase' with hleft | ⟨hl₁, hl₂, hl₃, hl₄, hx'⟩ | hright
      · omega
      · exact h.stretch_lt hk hl hk₁ hkl hl₂ hm hm' hx hx'
      · exact hseen hk' hl' (by omega)
    · exact hseen hk' hl' (by omega)
  by_cases hqc : q ∈ cut
  · -- a text has no children, so both boundaries are offsets in it
    have hleaf := children_of_isText wf (h.unnoticed.text_cut q hqc).1
    cases hk with
    | child mem _ => rw [hleaf] at mem; cases mem
    | offset i =>
      cases hl with
      | child mem _ => rw [hleaf] at mem; cases mem
      | offset j =>
        cases hm with
        | elsewhere _ hc => exact absurd hqc hc
        | before _ => exact absurd rfl hqp
        | behind _ => exact absurd rfl hqp
        | into moved =>
          cases hm' with
          | elsewhere _ hc => exact absurd hqc hc
          | before _ => exact absurd rfl hqp
          | behind _ => exact absurd rfl hqp
          | into moved' => exact h.cut_lt hqc (by omega) moved moved'
  · exact hseen (h.seen_elsewhere wf hqp hqc hm hk) (h.seen_elsewhere wf hqp hqc hm' hl) hkl

/-- **The boundaries around a node** move with it. -/
theorem around {c : Node} (hc : c ∈ f.children q) (hcut : c ∉ cut) :
    ∃ q', c ∈ g.children q' ∧
      Boundary.Moves p left old new cut into ⟨q, f.slot c⟩ ⟨q', g.slot c⟩ ∧
      Boundary.Moves p left old new cut into ⟨q, f.slot c + 1⟩ ⟨q', g.slot c + 1⟩ := by
  have hr := h.unnoticed.replaced
  by_cases hqp : q = p
  · subst hqp
    rw [hr.children_old, List.mem_append, List.mem_append] at hc
    rcases hc with hc | hc | hc
    · obtain ⟨-, hcg, hslot, hlt⟩ := hr.slot_left wf hc
      rw [hslot]
      exact ⟨q, hcg, .before (by omega), .before hlt⟩
    · exact h.around_old hc hcut
    · obtain ⟨-, hcg, i, hi, hi'⟩ := hr.slot_right wf hc
      rw [hi, hi']
      exact ⟨q, hcg, .behind i, .behind (i + 1)⟩
  · obtain ⟨hcg, hslot⟩ := hr.slot_elsewhere wf hc hqp
    have hqc : q ∉ cut := h.unnoticed.not_cut_of_mem wf hc
    rw [hslot]
    exact ⟨q, hcg, .elsewhere hqp hqc, .elsewhere hqp hqc⟩

end Shift

end Forest

end TreePointer
