import TreePointer.Proofs.Address.Edges
import TreePointer.Proofs.Decoration.Carried

/-!
# The element at the start of a range, when the document is edited

The element in which a range starts is told from the container of the start, the child at its offset
and whether the range is a point. When an element is wrapped, the wrapper may be that container or
that child. The start then is in the wrapper, or it stays; it never is another element. Cutting a
text does nothing to a start that is not in that text.

* `startElement`: the element in which a range starts.
* `WrappedIn`: an element was wrapped. `WrappedIn.startElement_wrapped`: what that does to a start.
* `startElement_cut`: what cutting a text does to it.
-/

namespace TreePointer

namespace Address

open Forest

variable {f g : Forest} {d : Document} {r r' : Range} {m : Node}

/-- The element in which a range starts. For a document it is the first element. -/
def startElement (f : Forest) (r : Range) : Except Fault Node := do
  let n ← startNode f r
  if f.isElement n then .ok n
  else match f.firstElement? n with
    | some e => .ok e
    | none => .error (.unresolved .noDocumentElement)

theorem resolveElement_eq (f : Forest) (d : Document) (o : Options) (address : String) :
    resolveElement f d o address = resolve f d o address >>= startElement f := rfl

theorem startElement_of_isElement (hm : startNode f r = .ok m) (he : f.isElement m = true) :
    startElement f r = .ok m := by
  simp only [startElement, hm, bind, Except.bind, he, if_true]

theorem startElement_of_not_isElement (hm : startNode f r = .ok m) (he : f.isElement m = false)
    {e : Node} : startElement f r = .ok e ↔ f.firstElement? m = some e := by
  simp only [startElement, hm, bind, Except.bind, he, Bool.false_eq_true, if_false]
  cases f.firstElement? m <;> simp

/-- A start in a text goes up to the node above it. -/
theorem startNode_of_isText (ht : f.isText r.start.container = true) {p : Node}
    (hp : f.effectiveParent? r.start.container = some p) : startNode f r = .ok p := by
  simp [startNode, kind_of_isText ht, NodeKind.isContainer, hp]

section Container

variable (hc : (f.kind r.start.container).isContainer = true)

include hc

/-- A range that begins with an element starts there. -/
theorem startNode_child (hm : f.childAt? r.start.container r.start.offset = some m)
    (he : f.isElement m = true) (hr : r.isCollapsed = false) : startNode f r = .ok m := by
  simp [startNode, hc, hm, he, hr]

/-- Any other range starts in its container. -/
theorem startNode_self (h : ∀ c, f.childAt? r.start.container r.start.offset = some c →
      f.isElement c = true → r.isCollapsed = true) : startNode f r = .ok r.start.container := by
  simp only [startNode, hc, if_true]
  cases hm : f.childAt? r.start.container r.start.offset with
  | none => rfl
  | some c =>
    dsimp only
    rw [if_neg]
    rintro ⟨he, hr⟩
    exact hr (h c hm he)

/-- A range in a container starts there or with an element. -/
theorem startNode_cases (hm : startNode f r = .ok m) :
    m = r.start.container ∨ f.isElement m = true := by
  by_cases h : ∀ c, f.childAt? r.start.container r.start.offset = some c →
      f.isElement c = true → r.isCollapsed = true
  · rw [startNode_self hc h, Except.ok.injEq] at hm
    exact .inl hm.symm
  · push Not at h
    obtain ⟨c, hchild, he, hr⟩ := h
    rw [startNode_child hc hchild he (Bool.eq_false_iff.mpr hr), Except.ok.injEq] at hm
    exact .inr (hm ▸ he)

/-- Where the container, the child and the collapse are the same, the start is. -/
theorem startNode_congr (hcontainer : r'.start.container = r.start.container)
    (hkind : g.kind r.start.container = f.kind r.start.container)
    (hchild : g.childAt? r'.start.container r'.start.offset
      = f.childAt? r.start.container r.start.offset)
    (helement : ∀ c, f.childAt? r.start.container r.start.offset = some c →
      g.isElement c = f.isElement c)
    (hcollapsed : r'.isCollapsed = r.isCollapsed) : startNode g r' = startNode f r := by
  simp only [startNode, hchild]
  rw [hcontainer, hkind, hcollapsed, if_pos hc, if_pos hc]
  cases hm : f.childAt? r.start.container r.start.offset with
  | none => rfl
  | some c => simp only [helement c hm]

end Container

end Address

namespace Decoration

open Forest Address

variable {f g : Forest} {d : Document} {r r' : Range} {b b' : Boundary} {m p : Node}
  {left right : List Node}

/-- A range that has become a point was one. -/
theorem Carried.isCollapsed_of_follows {M : Boundary → Boundary → Prop} (h : Carried f g d M)
    (hf : Range.Follows M f g d r r') (hr : r'.isCollapsed = true) : r.isCollapsed = true := by
  obtain ⟨o, ho, hne⟩ := hf.sound.ordered
  cases o with
  | eq => exact beq_iff_eq.mpr (Boundary.compare_eq_iff.mp ho)
  | lt =>
    have hlt := h.lt hf.sound.start_within hf.sound.stop_within hf.start hf.stop ho
    rw [beq_iff_eq.mp hr, Boundary.compare_self] at hlt
    cases hlt
  | gt => exact absurd rfl hne

/-! ## An element was wrapped -/

/-- The element `n`, a child of `p`, was put into the new marked element `x`. -/
structure WrappedIn (f g : Forest) (p : Node) (left : List Node) (n x : Node)
    (right : List Node) : Prop where
  unnoticed : Unnoticed f g p left [n] [x] right []
  not_has : ¬ f.Has x
  children : g.children x = [n]
  marked : ∃ tag, g.content x = markedRecord tag

namespace WrappedIn

variable {n x : Node} (h : WrappedIn f g p left n x right)

include h

theorem isElement : g.isElement x = true :=
  have ⟨_, hx⟩ := h.marked
  isElement_of_marked hx

theorem isIgnored : g.isIgnored x = true :=
  have ⟨_, hx⟩ := h.marked
  isIgnored_of_marked hx

theorem parent_wrapper : g.parent x = some p :=
  h.unnoticed.replaced.wellFormed.parent_of_mem
    (h.unnoticed.replaced.slot_new (List.mem_singleton_self x)).1

theorem child_old : f.childAt? p left.length = some n := by
  rw [childAt?, h.unnoticed.replaced.children_old, List.getElem?_append_right (Nat.le_refl _),
    Nat.sub_self]
  rfl

theorem child_new : g.childAt? p left.length = some x := by
  rw [childAt?, h.unnoticed.replaced.children_new, List.getElem?_append_right (Nat.le_refl _),
    Nat.sub_self]
  rfl

/-- All other children are where they were. -/
theorem child_other {q : Node} {i : Nat} (hq : f.Has q) (hother : q = p → i ≠ left.length) :
    g.childAt? q i = f.childAt? q i := by
  have hr := h.unnoticed.replaced
  by_cases hqp : q = p
  · have hi := hother hqp
    rw [hqp, childAt?, childAt?, hr.children_new, hr.children_old]
    rcases Nat.lt_or_gt_of_ne hi with hlt | hgt
    · rw [List.getElem?_append_left hlt, List.getElem?_append_left hlt]
    · obtain ⟨k, rfl⟩ : ∃ k, i = left.length + (k + 1) := ⟨i - left.length - 1, by omega⟩
      rw [List.getElem?_append_right (Nat.le_add_right _ _),
        List.getElem?_append_right (Nat.le_add_right _ _), Nat.add_sub_cancel_left]
      rfl
  · rw [childAt?, hr.children_eq q hq hqp, childAt?]

omit h in
/-- Boundaries stay, if they do not come to be in the wrapper. -/
theorem moves (hm : b.MovesWrapped p left n x b') :
    b' = b ∨ Boundary.IntoWrapper p x left.length b b' := by
  cases hm with
  | elsewhere _ _ => exact .inl rfl
  | before _ => exact .inl rfl
  | behind _ => exact .inl rfl
  | into moved => exact .inr moved

theorem compare_wrapper (i j : Nat) :
    (Boundary.mk p i).compare g ⟨x, j⟩ = .ok (if left.length < i then .gt else .lt) :=
  h.unnoticed.replaced.wellFormed.compare_child h.child_new (.refl g x)

variable (hd : d.Rooted f) (hcarried : Carried f g d (Boundary.MovesWrapped p left n x))
  (hf : Range.Follows (Boundary.MovesWrapped p left n x) f g d r r')

include hf

/-- A point may become a range around the wrapper, or one that starts at its end. -/
theorem collapsed (hr : r.isCollapsed = true) :
    r'.isCollapsed = true ∨ r'.start = ⟨p, left.length⟩ ∨ r'.start = ⟨x, 1⟩ := by
  have wf' := h.unnoticed.replaced.wellFormed
  obtain ⟨o, ho, hne⟩ := hf.sound'.ordered
  have hstart := hf.start
  have hstop := hf.stop
  rw [← beq_iff_eq.mp hr] at hstop
  obtain ⟨start, stop⟩ := r
  obtain ⟨start', stop'⟩ := r'
  dsimp only at hstart hstop ho ⊢
  rcases moves hstart with rfl | hin
  · rcases moves hstop with rfl | hin
    · exact .inl (beq_self_eq_true _)
    · cases hin with
      | start => exact .inr (.inl rfl)
      | stop =>
        -- the stop would be before the start
        rw [h.compare_wrapper, if_pos (Nat.lt_succ_self _), Except.ok.injEq] at ho
        exact absurd ho.symm hne
  · cases hin with
    | stop => exact .inr (.inr rfl)
    | start =>
      rcases moves hstop with rfl | hin
      · have hback := h.compare_wrapper left.length 0
        rw [if_neg (Nat.lt_irrefl _)] at hback
        have hgt := wf'.compare_swap hf.sound'.stop_within hf.sound'.start_within hback
        rw [hgt, Except.ok.injEq] at ho
        exact absurd ho.symm hne
      · generalize e : (⟨p, left.length⟩ : Boundary) = start at hin
        cases hin with
        | start => exact .inl (beq_self_eq_true _)
        | stop => exact absurd (congrArg Boundary.offset e) (Nat.ne_of_lt (Nat.lt_succ_self _))

include hd

/-- A range of the old document does not start in the wrapper. -/
theorem start_ne : r.start.container ≠ x := by
  intro e
  have hw := hf.sound.start_within
  exact h.not_has (hd.wellFormed.has_of_within hd.has_root (e ▸ hw))

include hcarried

/-- A range that starts at the boundary at which it started. -/
theorem startNode_of_stays (hc : (f.kind r.start.container).isContainer = true)
    (hm : startNode f r = .ok m) (hstart : r'.start = r.start) :
    ∃ m', startNode g r' = .ok m' ∧ (m' = m ∨ m' = x ∧ p = r.start.container) := by
  have hhas := hd.wellFormed.has_of_within hd.has_root hf.sound.start_within
  have hkind : g.kind r.start.container = f.kind r.start.container := h.unnoticed.kind_eq hhas
  have hc' : (g.kind r'.start.container).isContainer = true := by rw [hstart, hkind, hc]
  by_cases hat : r.start.container = p ∧ r.start.offset = left.length
  · -- the wrapper is the child at the start
    cases hr' : r'.isCollapsed with
    | true =>
      have hr := hcarried.isCollapsed_of_follows hf hr'
      rw [startNode_self hc fun _ _ _ => hr, Except.ok.injEq] at hm
      exact ⟨_, startNode_self hc' fun _ _ _ => hr', .inl (hstart ▸ hm)⟩
    | false =>
      have hchild : g.childAt? r'.start.container r'.start.offset = some x := by
        rw [hstart, hat.1, hat.2, h.child_new]
      exact ⟨x, startNode_child hc' hchild h.isElement hr', .inr ⟨rfl, hat.1.symm⟩⟩
  · have hr : r'.isCollapsed = r.isCollapsed := by
      cases hr : r.isCollapsed with
      | false =>
        exact Bool.eq_false_iff.mpr fun hr' =>
          Bool.eq_false_iff.mp hr (hcarried.isCollapsed_of_follows hf hr')
      | true =>
        rcases h.collapsed hf hr with hr' | hp | hx
        · exact hr'
        · rw [hstart] at hp
          exact absurd ⟨congrArg Boundary.container hp, congrArg Boundary.offset hp⟩ hat
        · rw [hstart] at hx
          exact absurd (congrArg Boundary.container hx) (h.start_ne hd hf)
    have hchild : g.childAt? r'.start.container r'.start.offset
        = f.childAt? r.start.container r.start.offset := by
      rw [hstart]
      exact h.child_other hhas fun e hi => hat ⟨e, hi⟩
    have hsame := startNode_congr hc (congrArg Boundary.container hstart) hkind hchild
      (fun c hm => h.unnoticed.isElement_eq (hd.wellFormed.has_child (List.mem_of_getElem? hm))) hr
    exact ⟨m, hsame.trans hm, .inl rfl⟩

omit hd hcarried in
/-- A range that starts in the wrapper. -/
theorem startNode_of_into (hc : (f.kind r.start.container).isContainer = true)
    (hm : startNode f r = .ok m)
    (hin : Boundary.IntoWrapper p x left.length r.start r'.start) :
    ∃ m', startNode g r' = .ok m' ∧ (m' = m ∨ m' = x ∧ p = r.start.container) := by
  have wf' := h.unnoticed.replaced.wellFormed
  have hxp : x ≠ p := wf'.ne_of_mem_children (wf'.mem_of_parent h.parent_wrapper)
  have hn : f.isElement n = true :=
    h.unnoticed.element_uncut n (List.mem_singleton_self n) List.not_mem_nil
  have hn' := (h.unnoticed.isElement_eq (has_of_isElement hn)).trans hn
  have hx : r'.start.container = x := hin.containers.2
  generalize es : r.start = start at hin
  generalize es' : r'.start = start' at hin
  have hcx : (g.kind r'.start.container).isContainer = true := by
    rw [hx]
    exact isContainer_of_isElement h.isElement
  cases hin with
  | start =>
    cases hr' : r'.isCollapsed with
    | true => exact ⟨_, startNode_self hcx fun _ _ _ => hr', .inr ⟨hx, rfl⟩⟩
    | false =>
      have hr : r.isCollapsed = false := by
        refine Bool.eq_false_iff.mpr fun hr => ?_
        rcases h.collapsed hf hr with hcol | hp | hx
        · rw [hr'] at hcol
          cases hcol
        · rw [es'] at hp
          exact hxp (congrArg Boundary.container hp)
        · rw [es'] at hx
          cases hx
      have hchild : f.childAt? r.start.container r.start.offset = some n := by
        rw [es, h.child_old]
      have hchild' : g.childAt? r'.start.container r'.start.offset = some n := by
        rw [es', childAt?, h.children]
        rfl
      rw [startNode_child hc hchild hn hr, Except.ok.injEq] at hm
      exact ⟨n, startNode_child hcx hchild' hn' hr', .inl hm⟩
  | stop =>
    have hchild : g.childAt? r'.start.container r'.start.offset = none := by
      rw [es', childAt?, h.children]
      rfl
    refine ⟨_, startNode_self hcx fun c hc _ => ?_, .inr ⟨hx, rfl⟩⟩
    rw [hchild] at hc
    cases hc

omit hf hd hcarried in
/-- The first element of a node stays, or is put into the wrapper. -/
theorem firstElement?_eq (wf : f.WellFormed) {q e : Node} (hq : f.Has q)
    (he : f.firstElement? q = some e) :
    ∃ e', g.firstElement? q = some e' ∧ (e' = e ∨ e' = x ∧ p = q) := by
  have hr := h.unnoticed.replaced
  by_cases hqp : q = p
  · subst hqp
    have hleft : ∀ m ∈ left, f.Has m := fun m hm => wf.has_child (hr.slot_left wf hm).1
    rw [firstElement?, hr.children_old, List.find?_append] at he
    rw [firstElement?, hr.children_new, List.find?_append, h.unnoticed.find?_eq hleft]
    cases hfirst : left.find? f.isElement with
    | some m =>
      rw [hfirst, Option.some_or, Option.some.injEq] at he
      exact ⟨m, rfl, .inl he⟩
    | none =>
      rw [Option.none_or, List.singleton_append, List.find?_cons_of_pos h.isElement]
      exact ⟨x, rfl, .inr ⟨rfl, rfl⟩⟩
  · refine ⟨e, ?_, .inl rfl⟩
    rw [firstElement?, hr.children_eq q hq hqp, h.unnoticed.find?_eq fun _ hm => wf.has_child hm,
      ← firstElement?, he]

/-- **The element at the start of a range** in a container stays, or is the wrapper of one that is
in it. -/
theorem startElement_wrapped (hc : (f.kind r.start.container).isContainer = true) {e : Node}
    (he : startElement f r = .ok e) :
    ∃ e', startElement g r' = .ok e' ∧ (e' = e ∨ e' = x ∧ p = r.start.container) := by
  obtain ⟨m, hm, hw⟩ := startNode_sound hd hf.sound
  have hhas := hd.wellFormed.has_of_within hd.has_root hw
  obtain ⟨m', hm', hcase⟩ : ∃ m', startNode g r' = .ok m' ∧
      (m' = m ∨ m' = x ∧ p = r.start.container) := by
    rcases moves hf.start with hstart | hin
    · exact h.startNode_of_stays hd hcarried hf hc hm hstart
    · exact h.startNode_of_into hf hc hm hin
  rcases hcase with rfl | ⟨rfl, hp⟩
  · have hsame : g.isElement m' = f.isElement m' := h.unnoticed.isElement_eq hhas
    cases hm'e : f.isElement m' with
    | true =>
      rw [startElement_of_isElement hm hm'e, Except.ok.injEq] at he
      exact ⟨m', startElement_of_isElement hm' (hsame.trans hm'e), .inl he⟩
    | false =>
      -- only the container can be no element
      obtain rfl | helement := startNode_cases hc hm
      · obtain ⟨e', he', hcase⟩ := h.firstElement?_eq hd.wellFormed hhas
          ((startElement_of_not_isElement hm hm'e).mp he)
        exact ⟨e', (startElement_of_not_isElement hm' (hsame.trans hm'e)).mpr he', hcase⟩
      · rw [hm'e] at helement
        cases helement
  · exact ⟨m', startElement_of_isElement hm' h.isElement, .inr ⟨rfl, hp⟩⟩

end WrappedIn

/-! ## A text was cut -/

section Cut

variable {t x u : Node} {k : Nat} {tag : String}

/-- Boundaries outside of the text stay, or are moved on by the two new nodes. -/
theorem moves_of_cut (hb : b.container ≠ t) (hm : b.MovesCut p left t x u k b') :
    b'.container = b.container ∧ (b.container = p ∧ left.length < b.offset ∧
        b'.offset = b.offset + 2 ∨
      (b.container = p → b.offset ≤ left.length) ∧ b'.offset = b.offset) := by
  cases hm with
  | elsewhere hp _ => exact ⟨rfl, .inr ⟨fun e => absurd e hp, rfl⟩⟩
  | before le => exact ⟨rfl, .inr ⟨fun _ => le, rfl⟩⟩
  | behind i => exact ⟨rfl, .inl ⟨rfl, by dsimp only [List.length_cons, List.length_nil]; omega,
      by dsimp only [List.length_cons, List.length_nil]; omega⟩⟩
  | into moved => cases moved <;> exact absurd rfl hb

/-- Containers stay, or become the second part of the text. -/
theorem container_of_cut (hm : b.MovesCut p left t x u k b') :
    b'.container = b.container ∨ b.container = t ∧ b'.container = u := by
  cases hm with
  | into moved =>
    cases moved with
    | head _ => exact .inl rfl
    | tail _ => exact .inr ⟨rfl, rfl⟩
  | _ => exact .inl rfl

variable (hd : d.Rooted f) (ht : f.isText t = true) (hp : f.isElement p = true)
  (hr : Replaced f g p left [t] [t, x, u] right) (hm : Marked f g p t x u k tag)
  (hcarried : Carried f g d (Boundary.MovesCut p left t x u k))
  (hf : Range.Follows (Boundary.MovesCut p left t x u k) f g d r r')
  (hc : (f.kind r.start.container).isContainer = true)

include hr in
/-- The child at a boundary outside of the text stays. -/
theorem childAt?_of_cut (hhas : f.Has b.container) (hb : b.container ≠ t)
    (hmoves : b.MovesCut p left t x u k b') :
    g.childAt? b'.container b'.offset = f.childAt? b.container b.offset := by
  obtain ⟨hcontainer, ⟨hbp, hlt, hoffset⟩ | ⟨hle, hoffset⟩⟩ := moves_of_cut hb hmoves
  · obtain ⟨i, hi⟩ : ∃ i, b.offset = left.length + (i + 1) := ⟨b.offset - left.length - 1, by omega⟩
    rw [hcontainer, hoffset, hbp, hi, childAt?, childAt?, hr.children_new, hr.children_old,
      Nat.add_assoc, List.getElem?_append_right (Nat.le_add_right _ _),
      List.getElem?_append_right (Nat.le_add_right _ _), Nat.add_sub_cancel_left,
      Nat.add_sub_cancel_left]
    rfl
  · rw [hcontainer, hoffset]
    by_cases hbp : b.container = p
    · rw [hbp, childAt?, childAt?, hr.children_new, hr.children_old]
      rcases Nat.lt_or_eq_of_le (hle hbp) with hlt | heq
      · rw [List.getElem?_append_left hlt, List.getElem?_append_left hlt]
      · rw [heq, List.getElem?_append_right (Nat.le_refl _),
          List.getElem?_append_right (Nat.le_refl _), Nat.sub_self]
        rfl
    · rw [childAt?, hr.children_eq _ hhas hbp, childAt?]

include ht hc

theorem container_ne_text : r.start.container ≠ t := by
  rintro rfl
  rw [not_isText_of_isContainer hc] at ht
  cases ht

include hf hcarried in
/-- Points in a container stay points. -/
theorem isCollapsed_of_cut : r'.isCollapsed = r.isCollapsed := by
  have hne := container_ne_text ht hc
  cases hcol : r.isCollapsed with
  | false =>
    exact Bool.eq_false_iff.mpr fun hcol' =>
      Bool.eq_false_iff.mp hcol (hcarried.isCollapsed_of_follows hf hcol')
  | true =>
    have hstop := hf.stop
    rw [← beq_iff_eq.mp hcol] at hstop
    obtain ⟨hcontainer, hoffset⟩ := moves_of_cut hne hf.start
    obtain ⟨hcontainer', hoffset'⟩ := moves_of_cut hne hstop
    have hoffsets : r'.start.offset = r'.stop.offset := by
      rcases hoffset with ⟨hp, hlt, e⟩ | ⟨hle, e⟩
      · rcases hoffset' with ⟨-, -, e'⟩ | ⟨hle', e'⟩
        · rw [e, e']
        · exact absurd (hle' hp) (Nat.not_le.mpr hlt)
      · rcases hoffset' with ⟨hp, hlt, e'⟩ | ⟨-, e'⟩
        · exact absurd (hle hp) (Nat.not_le.mpr hlt)
        · rw [e, e']
    obtain ⟨⟨c, i⟩, ⟨c', i'⟩⟩ := r'
    cases hcontainer.trans hcontainer'.symm
    cases hoffsets
    exact beq_self_eq_true _

include hd hp hr hm hcarried hf

/-- **The element at the start of a range** in a container stays, when a text is cut. -/
theorem startElement_cut {e : Node} (he : startElement f r = .ok e) :
    startElement g r' = .ok e := by
  have wf := hd.wellFormed
  have hne := container_ne_text ht hc
  have hquiet := hm.quiet wf ht hr hp
  have hstart := wf.has_of_within hd.has_root hf.sound.start_within
  obtain ⟨n, hn, hw⟩ := startNode_sound hd hf.sound
  have hn' : startNode g r' = .ok n :=
    (startNode_congr hc (moves_of_cut hne hf.start).1 (hquiet.kind_eq hstart)
      (childAt?_of_cut hr hstart hne hf.start)
      (fun c hm => hquiet.isElement_eq (wf.has_child (List.mem_of_getElem? hm)))
      (isCollapsed_of_cut ht hcarried hf hc)).trans hn
  have hhas := wf.has_of_within hd.has_root hw
  have hsame := hquiet.isElement_eq hhas
  cases helement : f.isElement n with
  | true =>
    rw [startElement_of_isElement hn helement] at he
    rw [startElement_of_isElement hn' (hsame.trans helement), he]
  | false =>
    have hnp : n ≠ p := by
      rintro rfl
      rw [hp] at helement
      cases helement
    have hfirst := (startElement_of_not_isElement hn helement).mp he
    rw [startElement_of_not_isElement hn' (hsame.trans helement), firstElement?,
      hr.children_eq n hhas hnp, hquiet.find?_eq fun _ hm => wf.has_child hm, ← firstElement?,
      hfirst]

end Cut

end Decoration

end TreePointer
