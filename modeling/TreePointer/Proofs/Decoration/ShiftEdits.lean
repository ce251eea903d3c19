import TreePointer.Proofs.Decoration.Shift

/-!
# The edits of the decoration move boundaries in order

A wrapper takes the place of its element, and the boundaries directly before and behind the element
come to be before and behind it in the wrapper, or stay where they were, outside of it. When a text
is cut, a boundary in its second part comes to be in the new text, and one at the cut may be in
either part.

* `wrap_shift`, `Marked.shift`: the edits and where they move boundaries.
-/

namespace TreePointer

/-- The boundaries around the `i`-th child of `p`, in the wrapper of that child. -/
inductive Boundary.IntoWrapper (p x : Node) (i : Nat) : Boundary → Boundary → Prop
  | start : IntoWrapper p x i ⟨p, i⟩ ⟨x, 0⟩
  | stop : IntoWrapper p x i ⟨p, i + 1⟩ ⟨x, 1⟩

theorem Boundary.IntoWrapper.containers {p x : Node} {i : Nat} {a b : Boundary}
    (h : IntoWrapper p x i a b) : a.container = p ∧ b.container = x := by
  cases h <;> exact ⟨rfl, rfl⟩

/-- The boundaries in a text that was cut at `k`, in the part that has the characters on one of
their sides. -/
inductive Boundary.IntoParts (t u : Node) (k : Nat) : Boundary → Boundary → Prop
  | head {i : Nat} (le : i ≤ k) : IntoParts t u k ⟨t, i⟩ ⟨t, i⟩
  | tail {i : Nat} (le : k ≤ i) : IntoParts t u k ⟨t, i⟩ ⟨u, i - k⟩

/-- Where boundaries may be once the child `n` of `p`, behind the children `left`, was put into
`x`. -/
abbrev Boundary.MovesWrapped (p : Node) (left : List Node) (n x : Node) :
    Boundary → Boundary → Prop :=
  Boundary.Moves p left [n] [x] [] (Boundary.IntoWrapper p x left.length)

/-- Where boundaries may be once the child `t` of `p`, behind the children `left`, was cut at `k`
around `x`. -/
abbrev Boundary.MovesCut (p : Node) (left : List Node) (t x u : Node) (k : Nat) :
    Boundary → Boundary → Prop :=
  Boundary.Moves p left [t] [t, x, u] [t] (Boundary.IntoParts t u k)

namespace Forest

variable {f g : Forest} {p n x : Node} {left old new right cut : List Node}
  {into : Boundary → Boundary → Prop}

/-- A text that was not cut is its only part. -/
theorem Unnoticed.parted_uncut (h : Unnoticed f g p left old new right cut) (wf : f.WellFormed)
    {t c : Node} (hp : c ∈ f.children p) (ht : f.isShown t = true) (hcut : t ∉ cut) :
    Parted f g (Boundary.Moves p left old new cut into) t [t] := by
  have htext := isText_of_isShown ht
  have hcontent := h.content_eq t (has_of_isText htext) hcut
  have hne : t ≠ p := by
    rintro rfl
    rw [wf.not_isText_of_mem_children hp] at htext
    cases htext
  have hplaces : g.placesOf t = f.placesOf t := by
    rw [placesOf, characters_congr hcontent, placesOf]
  have hshown : g.isShown t = true := (h.isShown_eq wf (has_of_isText htext) hcut).trans ht
  refine ⟨?_, t, rfl, ?_⟩
  · rw [List.flatMap_singleton, hplaces]
    refine List.forall₂_same.mpr fun y hy => ?_
    obtain rfl := (mem_placesOf.mp hy).1
    exact ⟨rfl, .elsewhere hne hcut, .elsewhere hne hcut⟩
  · rw [length_of_isShown hshown, length_of_isShown ht, characters_congr hcontent]
    exact .elsewhere hne hcut

/-! ## Wrapping -/

section Wrap

variable {a b : Boundary} {k : Nat} (wf : f.WellFormed)
  (h : Unnoticed f g p left [n] [x] right []) (hchild : g.children x = [n])

include wf h

/-- What was in the element has not moved. -/
theorem eq_of_moves_within (hw : f.Within n a.container) (hm : a.MovesWrapped p left n x b) :
    b = a := by
  have hnp := wf.not_within_child (h.replaced.mem_old (List.mem_singleton_self n))
  cases hm with
  | elsewhere _ _ => rfl
  | before _ => exact absurd hw hnp
  | behind _ => exact absurd hw hnp
  | into moved => cases moved <;> exact absurd hw hnp

include hchild

/-- What was in the element is in its wrapper, between the two boundaries there. -/
theorem seen_from_wrapper (hw : f.Within n a.container) (hm : a.MovesWrapped p left n x b) :
    b.SeenFrom g x 1 := by
  have hsplit : g.children x = [] ++ n :: [] := hchild
  have hslot : g.slot n = 0 := h.replaced.wellFormed.slot_eq hsplit
  obtain rfl := eq_of_moves_within wf h hw hm
  have hs := Boundary.SeenFrom.child (f := g) (q := x) (hchild ▸ List.mem_singleton_self n)
    (h.within_of_within wf List.not_mem_nil hw)
  rwa [hslot] at hs

/-- A boundary of the stretch that came to be in the wrapper is seen from there where it was seen
from the node above. -/
theorem seen_in_wrapper (hs : a.SeenFrom f p k) (hlo : 2 * left.length ≤ k)
    (hhi : k ≤ 2 * (left.length + [n].length))
    (hm : a.MovesWrapped p left n x b) (hw : ∃ y ∈ [x], g.Within y b.container) :
    b.SeenFrom g x (k - 2 * left.length) := by
  have wf' := h.replaced.wellFormed
  obtain ⟨y, hy, hw⟩ := hw
  obtain rfl := List.mem_singleton.mp hy
  have hxp := wf'.not_within_child (h.replaced.slot_new hy).1
  cases hs with
  | offset i =>
    cases hm with
    | elsewhere hp _ => exact absurd rfl hp
    | before _ => exact absurd hw hxp
    | behind _ => exact absurd hw hxp
    | into moved =>
      cases moved with
      | start =>
        rw [Nat.sub_self]
        exact .offset 0
      | stop =>
        have e : 2 * (left.length + 1) - 2 * left.length = 2 * 1 := by omega
        rw [e]
        exact .offset 1
  | @child _ c mem within =>
    rw [List.length_singleton] at hhi
    obtain rfl : c = n := by
      have hn := h.replaced.mem_old (List.mem_singleton_self n)
      have hslot := h.replaced.slot_old wf (List.mem_singleton_self n)
      rw [List.length_singleton] at hslot
      exact wf.slot_inj mem hn (by omega)
    have hslot := h.replaced.slot_old wf (List.mem_singleton_self c)
    rw [List.length_singleton] at hslot
    have e : 2 * f.slot c + 1 - 2 * left.length = 1 := by omega
    rw [e]
    exact seen_from_wrapper wf h hchild within hm

/-- **Wrapping an element** moves boundaries in order. -/
theorem wrap_shift (hx : g.isElement x = true) :
    Shift f g p left [n] [x] right [] (Boundary.IntoWrapper p x left.length) := by
  have wf' := h.replaced.wellFormed
  have hn : n ∈ f.children p := h.replaced.mem_old (List.mem_singleton_self n)
  have hxp : x ∈ g.children p := (h.replaced.slot_new (List.mem_singleton_self x)).1
  have hnx : n ∈ g.children x := hchild ▸ List.mem_singleton_self n
  have hslot : f.slot n = left.length := wf.slot_eq h.replaced.children_old
  have hsplit : g.children x = [] ++ n :: [] := hchild
  have hslot' : g.slot n = 0 := wf'.slot_eq hsplit
  refine {
    unnoticed := h
    new_ne_nil := List.cons_ne_nil x []
    into_new := fun hm => ?_
    old_within_new := fun hc hw hm => ?_
    stretch_lt := fun hk hl hlo hkl hhi hm hm' hw hw' => ?_
    cut_lt := fun ht => absurd ht List.not_mem_nil
    around_old := fun hc _ => ?_
    texts := ⟨fun t => [t], fun m hm hcut => ?_, fun t ht =>
      h.parted_uncut wf hn ht List.not_mem_nil⟩ }
  · rw [List.length_singleton]
    cases hm with
    | start => exact ⟨List.mem_singleton_self x, .inr ⟨rfl, Nat.le_refl _, Nat.le_succ _⟩⟩
    | stop => exact ⟨List.mem_singleton_self x, .inr ⟨rfl, Nat.le_succ _, Nat.le_refl _⟩⟩
  · rw [List.mem_singleton.mp hc] at hw
    exact ⟨x, List.mem_singleton_self x,
      wf'.within_of_seen (seen_from_wrapper wf h hchild hw hm)⟩
  · have hka := seen_in_wrapper wf h hchild hk hlo (by omega) hm hw
    have hlb := seen_in_wrapper wf h hchild hl (by omega) hhi hm' hw'
    rw [wf'.compare_of_seen hka hlb (by omega), Nat.compare_eq_lt.mpr (by omega)]
  · rw [List.mem_singleton.mp hc, hslot, hslot']
    exact ⟨x, hnx, .into .start, .into .stop⟩
  · refine h.shownTexts_eq wf (fun _ _ => rfl) (fun hold => ?_) hm hcut
    rw [List.flatMap_singleton, List.flatMap_singleton,
      wf'.shownTexts_eq (wf'.has_of_mem_children hnx), not_isShown_of_isElement hx, hchild,
      List.flatMap_singleton]
    exact hold n (List.mem_singleton_self n) List.not_mem_nil

end Wrap

/-! ## Cutting a text -/

section Cut

variable {t u : Node} {k : Nat} {tag : String} (wf : f.WellFormed) (ht : f.isText t = true)
  (hk : k ≤ (f.characters t).length) (hp : f.isElement p = true)
  (hr : Replaced f g p left [t] [t, x, u] right) (hm : Marked f g p t x u k tag)

include hm

/-- The characters of a cut text are in its parts. -/
theorem Marked.places_parts (hk : k ≤ (f.characters t).length) :
    List.Forall₂ (Place.Moves (Boundary.MovesCut p left t x u k)) (f.placesOf t)
      (g.placesOf t ++ g.placesOf u) := by
  have hlen : ((f.characters t).take k).length = k := List.length_take_of_le hk
  have hsplit : f.placesOf t = g.placesOf t ++
      (((f.characters t).drop k).zipIdx (k + 0)).map fun x => Place.mk x.1 t x.2 := by
    rw [placesOf, placesOf, hm.characters_text, ← List.map_append]
    conv_lhs => rw [← List.take_append_drop k (f.characters t), List.zipIdx_append, hlen]
    rw [Nat.zero_add, Nat.add_zero]
  rw [hsplit]
  refine List.rel_append (List.forall₂_same.mpr fun y hy => ?_) ?_
  · obtain ⟨rfl, hc⟩ := mem_placesOf.mp hy
    have hlt := (List.getElem?_eq_some_iff.mp hc).1
    rw [hm.characters_text, hlen] at hlt
    exact ⟨rfl, .into (.head (Nat.le_of_lt hlt)), .into (.head hlt)⟩
  · rw [placesOf, hm.characters_tail]
    -- the indices of the second part are behind `k` in the whole text
    generalize (f.characters t).drop k = cs
    generalize 0 = j
    induction cs generalizing j with
    | nil => exact .nil
    | cons c cs ih =>
      rw [List.zipIdx_cons, List.zipIdx_cons, List.map_cons, List.map_cons, Nat.add_assoc]
      have hbefore : Boundary.IntoParts t u k ⟨t, k + j⟩ ⟨u, k + j - k⟩ := .tail (by omega)
      have hafter : Boundary.IntoParts t u k ⟨t, k + j + 1⟩ ⟨u, k + j + 1 - k⟩ := .tail (by omega)
      rw [Nat.add_sub_cancel_left] at hbefore
      rw [Nat.add_assoc, Nat.add_sub_cancel_left] at hafter
      exact .cons ⟨rfl, .into hbefore, .into hafter⟩ (ih (j + 1))

include hr

/-- The parts of a cut text are children of one node, the second one behind the first. -/
theorem Marked.slot_parts : t ∈ g.children p ∧ u ∈ g.children p ∧ g.slot t = left.length ∧
    g.slot u = left.length + 2 := by
  have wf' := hr.wellFormed
  have hu : g.children p = (left ++ [t, x]) ++ u :: right := by
    rw [hr.children_new, List.append_assoc]
    rfl
  refine ⟨wf'.mem_of_parent hm.parent_text, wf'.mem_of_parent hm.parent_tail,
    wf'.slot_eq hr.children_new, ?_⟩
  rw [wf'.slot_eq hu, List.length_append]
  rfl

/-- Boundaries of a cut text stay in order. -/
theorem Marked.cut_lt {i j : Nat} {a' b' : Boundary} (hij : i < j)
    (ha : Boundary.IntoParts t u k ⟨t, i⟩ a') (hb : Boundary.IntoParts t u k ⟨t, j⟩ b') :
    a'.compare g b' = .ok .lt := by
  have wf' := hr.wellFormed
  obtain ⟨ht, hu, hslot, hslot'⟩ := hm.slot_parts hr
  cases ha with
  | head le =>
    cases hb with
    | head le' =>
      have e := Boundary.compare_same (f := g) (a := ⟨t, i⟩) (b := ⟨t, j⟩) rfl
      rw [e, Nat.compare_eq_lt.mpr hij]
    | tail le' =>
      have hs : Boundary.SeenFrom g p ⟨t, i⟩ _ := .child ht (.refl g t)
      have hs' : Boundary.SeenFrom g p ⟨u, j - k⟩ _ := .child hu (.refl g u)
      rw [wf'.compare_of_seen hs hs' (by omega), Nat.compare_eq_lt.mpr (by omega)]
  | tail le =>
    cases hb with
    | head le' => omega
    | tail le' =>
      have e := Boundary.compare_same (f := g) (a := ⟨u, i - k⟩) (b := ⟨u, j - k⟩) rfl
      have hlt : i - k < j - k := by omega
      rw [e, Nat.compare_eq_lt.mpr hlt]

/-- A text shows in its parts. -/
theorem Marked.shownTexts_parts (wf : f.WellFormed) (ht : f.isText t = true) :
    [t, x, u].flatMap g.shownTexts = if f.isShown t then [t, u] else [] := by
  have wf' := hr.wellFormed
  have hu := hm.isText_tail
  have hx := isElement_of_marked hm.content_marker
  have hleaf : ∀ {m}, g.isText m = true → g.parent m = some p →
      g.shownTexts m = if f.isShown t then [m] else [] := fun hm hmp => by
    rw [wf'.shownTexts_eq (has_of_isText hm), hr.isShown_new wf ht hm hmp,
      children_of_isText wf' hm, List.flatMap_nil, List.append_nil]
  have hmarker : g.shownTexts x = [] := by
    rw [wf'.shownTexts_eq (has_of_isElement hx), not_isShown_of_isElement hx, hm.children_marker]
    rfl
  rw [List.flatMap_cons, List.flatMap_cons, List.flatMap_singleton,
    hleaf hm.isText_text hm.parent_text, hmarker, hleaf hu hm.parent_tail]
  split
  · rfl
  · rfl

/-- A text that is shown is in its parts. -/
theorem Marked.parted (wf : f.WellFormed) (ht : f.isText t = true)
    (hk : k ≤ (f.characters t).length) (hshown : f.isShown t = true) :
    Parted f g (Boundary.MovesCut p left t x u k) t [t, u] := by
  have hshown' : g.isShown u = true :=
    (hr.isShown_new wf ht hm.isText_tail hm.parent_tail).trans hshown
  refine ⟨?_, u, rfl, ?_⟩
  · rw [List.flatMap_cons, List.flatMap_singleton]
    exact hm.places_parts hk
  · rw [length_of_isShown hshown', length_of_isShown hshown, hm.characters_tail, List.length_drop]
    exact .into (.tail hk)

include wf ht

/-- A boundary of the stretch that is in a new child was in the text. -/
theorem Marked.seen_in_parts {a b : Boundary} {l : Nat} (hs : a.SeenFrom f p l)
    (hlo : 2 * left.length ≤ l) (hhi : l ≤ 2 * (left.length + [t].length))
    (hmoves : a.MovesCut p left t x u k b) (hw : ∃ y ∈ [t, x, u], g.Within y b.container) :
    l = 2 * left.length + 1 := by
  have wf' := hr.wellFormed
  obtain ⟨y, hy, hw⟩ := hw
  have hyp := wf'.not_within_child (hr.slot_new hy).1
  cases hs with
  | offset i =>
    cases hmoves with
    | elsewhere hp _ => exact absurd rfl hp
    | before _ => exact absurd hw hyp
    | behind _ => exact absurd hw hyp
    | into moved =>
      have htp : t ≠ p := wf.ne_of_mem_children (hr.mem_old (List.mem_singleton_self t))
      cases moved <;> exact absurd rfl htp
  | child mem within =>
    rw [List.length_singleton] at hhi
    omega

omit hm in
/-- A boundary in the text is in one of its parts afterwards. -/
theorem Replaced.within_parts {a b : Boundary} (hw : f.Within t a.container)
    (hmoves : a.MovesCut p left t x u k b) : ∃ y ∈ [t, x, u], g.Within y b.container := by
  have hnp := wf.not_within_child (hr.mem_old (List.mem_singleton_self t))
  cases hmoves with
  | elsewhere _ hcut =>
    rcases hw with e | hw
    · exact absurd (e ▸ List.mem_singleton_self t) hcut
    · obtain ⟨c, hc, -⟩ := wf.exists_child_within hw
      rw [children_of_isText wf ht] at hc
      cases hc
  | before _ => exact absurd hw hnp
  | behind _ => exact absurd hw hnp
  | into moved =>
    cases moved with
    | head _ => exact ⟨t, List.mem_cons_self, .refl g t⟩
    | tail _ => exact ⟨u, by simp, .refl g u⟩

include hk hp

/-- **Cutting a text** moves boundaries in order. -/
theorem Marked.shift :
    Shift f g p left [t] [t, x, u] right [t] (Boundary.IntoParts t u k) := by
  have hquiet := hm.quiet wf ht hr hp
  have htp : t ∈ f.children p := hr.mem_old (List.mem_singleton_self t)
  refine {
    unnoticed := hquiet
    new_ne_nil := List.cons_ne_nil _ _
    into_new := fun hmoves => ?_
    old_within_new := fun hc hw => hr.within_parts wf ht (List.mem_singleton.mp hc ▸ hw)
    stretch_lt := fun hka hlb hlo hkl hhi hma hmb hw hw' => ?_
    cut_lt := fun htc hij hma hmb => ?_
    around_old := fun hc hcut => absurd hc hcut
    texts := ⟨fun m => if m = t then [t, u] else [m], fun n hn hcut => ?_, fun m hshown => ?_⟩ }
  · cases hmoves with
    | head _ => exact ⟨List.mem_cons_self, .inl (List.mem_singleton_self t)⟩
    | tail _ => exact ⟨by simp, .inl (List.mem_singleton_self t)⟩
  · have e := hm.seen_in_parts wf ht hr hka hlo (by omega) hma hw
    have e' := hm.seen_in_parts wf ht hr hlb (by omega) hhi hmb hw'
    omega
  · rw [List.mem_singleton.mp htc] at hma hmb
    exact hm.cut_lt hr hij hma hmb
  · refine hquiet.shownTexts_eq wf (fun m hcut => if_neg fun e => hcut (List.mem_singleton.mpr e))
      (fun _ => ?_) hn hcut
    rw [hm.shownTexts_parts hr wf ht, List.flatMap_singleton,
      wf.shownTexts_eq (has_of_isText ht), children_of_isText wf ht, List.flatMap_nil,
        List.append_nil]
    split
    · rw [List.flatMap_singleton, if_pos rfl]
    · rfl
  · dsimp only
    by_cases hmt : m = t
    · rw [if_pos hmt, hmt]
      exact hm.parted hr wf ht hk (hmt ▸ hshown)
    · rw [if_neg hmt]
      exact hquiet.parted_uncut wf htp hshown fun e => hmt (List.mem_singleton.mp e)

end Cut

end Forest

end TreePointer
