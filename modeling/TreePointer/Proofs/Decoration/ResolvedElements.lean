import TreePointer.Proofs.Decoration.StartElement
import TreePointer.Proofs.Decoration.WrappedElements

/-!
# Elements of addresses, in a decorated document

Decorating a document below its first element keeps what the ranges of addresses stand for, but the
element in which a range starts may become a wrapper that was made. Such a wrapper stands in the
node in which the range started before, with nothing but wrappers between. A start in a text goes up
past all wrappers, and the range around an element starts with that element: these give the element
that they gave before.

* `InnerStep`, `DecoratedBelow`: edits below the first element, and runs of them.
* `State.Becomes`: a node, or a wrapper that was made. `Led`: what a start becomes.
* `InnerStep.carried`: one edit. `DecoratedBelow.resolve`: runs.
* `resolveElement_decorated`: the element of an address after any run.
* `not_resolveElement_decorated`: the start of a wrapped element.
-/

namespace TreePointer

namespace Forest

/-- The node itself, or the one that stands above it if it is ignored. -/
def nearest? (f : Forest) (n : Node) : Option Node :=
  if f.isIgnored n then f.effectiveParent? n else some n

theorem WellFormed.effectiveParent?_eq_nearest {f : Forest} (wf : f.WellFormed) {n p : Node}
    (h : f.parent n = some p) : f.effectiveParent? n = f.nearest? p :=
  wf.effectiveParent?_of_parent h

end Forest

namespace Decoration

open Forest Address

variable {f : Forest} {d : Document} {s s' s'' : State} {r r' r'' : Range} {c m n : Node}

/-! ## Edits below the first element -/

/-- One edit of the document that leaves its first element and what is around that alone. -/
inductive InnerStep (d : Document) : State → State → Prop
  | wrap {s : State} (n : Node) (tag : String) {top : Node} {result : Except Fault Node}
      {g : Forest} (first : s.forest.firstElement? d.root = some top)
      (below : top ∈ s.forest.ancestors n) (element : s.forest.isElement n = true)
      (edit : s.forest.wrap n tag = (result, g)) :
      InnerStep d s ⟨g, result.toOption.toList ++ s.made, s.piece⟩
  | mark {s : State} (t : Node) (k : Nat) (tag : String) {p : Node} {result : Except Fault Node}
      {g : Forest} (text : s.forest.isText t = true) (above : s.forest.parent t = some p)
      (element : s.forest.isElement p = true) (edit : s.forest.insertMarked t k tag = (result, g)) :
      InnerStep d s ⟨g, result.toOption.toList ++ s.made,
        if result.toOption.isSome then s.cut t k else s.piece⟩

/-- Some edits below the first element lead from a forest to a state. -/
def DecoratedBelow (f : Forest) (d : Document) (s : State) : Prop :=
  Relation.ReflTransGen (InnerStep d) (State.start f) s

theorem InnerStep.step (h : InnerStep d s s') : Step s s' := by
  cases h with
  | wrap n tag _ _ element edit => exact .wrap n tag element edit
  | mark t k tag text above element edit => exact .mark t k tag text above element edit

theorem DecoratedBelow.decorated (h : DecoratedBelow f d s) : Decorated f s :=
  Relation.ReflTransGen.mono (fun _ _ h => InnerStep.step h) _ _ h

/-- What was made is not forgotten. -/
theorem InnerStep.made_subset (h : InnerStep d s s') : s.made ⊆ s'.made := by
  cases h with
  | wrap n tag _ _ _ _ => exact List.subset_append_right _ _
  | mark t k tag _ _ _ _ => exact List.subset_append_right _ _

/-! ## What a start becomes -/

/-- A node is the old one still, or a wrapper that was made and stands in `c`. -/
inductive State.Becomes (s : State) (c n : Node) : Node → Prop
  | same : Becomes s c n n
  | wrapper {m : Node} (made : m ∈ s.made) (ignored : s.forest.isIgnored m = true)
      (above : s.forest.effectiveParent? m = s.forest.nearest? c) : Becomes s c n m

namespace State.Becomes

/-- A wrapper stays where it is. -/
theorem mono (h : s.Becomes c n m) (hs : Transparent s.forest s'.forest d.root)
    (hmade : s.made ⊆ s'.made) (hc : s.forest.Has c) (ht : s.forest.isText c = false) :
    s'.Becomes c n m := by
  cases h with
  | same => exact .same
  | wrapper made ignored above =>
    have helement := isElement_of_isIgnored ignored
    have hm := has_of_isElement helement
    have hcontent := hs.content_eq m hm (not_isText_of_isElement helement)
    refine .wrapper (hmade made) ((isIgnored_congr hcontent).trans ignored) ?_
    rw [hs.parent_eq m hm, above, nearest?, nearest?, isIgnored_congr (hs.content_eq c hc ht),
      hs.parent_eq c hc]

/-- A wrapper in a wrapper stands where that one does. -/
theorem of_container {c' : Node} (h : s.Becomes c c c') (h' : s.Becomes c' n m) :
    s.Becomes c n m := by
  cases h' with
  | same => exact .same
  | wrapper made ignored above =>
    refine .wrapper made ignored (above.trans ?_)
    cases h with
    | same => rfl
    | wrapper _ ignored above => rw [nearest?, if_pos ignored, above]

theorem trans {n' : Node} (h : s.Becomes c n n') (h' : s.Becomes c n' m) : s.Becomes c n m := by
  cases h' with
  | same => exact h
  | wrapper made ignored above => exact .wrapper made ignored above

end State.Becomes

/-- What the start of a range has become: it still is in a text and below the same node, or its
container and its element are the old ones or wrappers. -/
structure Led (s s' : State) (r r' : Range) : Prop where
  text : s.forest.isText r.start.container = true → s'.forest.isText r'.start.container = true ∧
    s'.forest.effectiveParent? r'.start.container = s.forest.effectiveParent? r.start.container
  container : (s.forest.kind r.start.container).isContainer = true →
    s'.Becomes r.start.container r.start.container r'.start.container
  element : (s.forest.kind r.start.container).isContainer = true → ∀ e,
    startElement s.forest r = .ok e →
    ∃ e', startElement s'.forest r' = .ok e' ∧ s'.Becomes r.start.container e e'

theorem Led.of_eq (hforest : s'.forest = s.forest) : Led s s' r r where
  text := fun ht => by rw [hforest]; exact ⟨ht, rfl⟩
  container := fun _ => .same
  element := fun _ e he => by rw [hforest]; exact ⟨e, he, .same⟩

/-- What a start has become becomes something again. -/
theorem Led.tail (h : Led s s' r r') (h' : Led s' s'' r' r'')
    (hs : Transparent s.forest s'.forest d.root) (hs' : Transparent s'.forest s''.forest d.root)
    (hmade : s'.made ⊆ s''.made) (hhas : s.forest.Has r.start.container) : Led s s'' r r'' := by
  have hkeep : (s.forest.kind r.start.container).isContainer = true → ∀ {n m : Node},
      s'.Becomes r.start.container n m → s''.Becomes r.start.container n m := by
    intro hc n m hnm
    have ht := (hs.isText_eq hhas).trans (not_isText_of_isContainer hc)
    exact hnm.mono hs' hmade (hs.has _ hhas) ht
  have hcontainer : (s.forest.kind r.start.container).isContainer = true →
      (s'.forest.kind r'.start.container).isContainer = true := by
    intro hc
    have hbecomes := h.container hc
    generalize r'.start.container = c at hbecomes
    cases hbecomes with
    | same => rwa [hs.kind_eq _ hhas]
    | wrapper _ ignored _ => exact isContainer_of_isElement (isElement_of_isIgnored ignored)
  refine ⟨fun ht => ?_, fun hc => ?_, fun hc e he => ?_⟩
  · obtain ⟨ht', hp⟩ := h.text ht
    obtain ⟨ht'', hp'⟩ := h'.text ht'
    exact ⟨ht'', hp'.trans hp⟩
  · have hfirst := hkeep hc (h.container hc)
    exact hfirst.trans (hfirst.of_container (h'.container (hcontainer hc)))
  · obtain ⟨e', he', hbecomes⟩ := h.element hc e he
    obtain ⟨e'', he'', hbecomes'⟩ := h'.element (hcontainer hc) e' he'
    exact ⟨e'', he'', (hkeep hc hbecomes).trans
      ((hkeep hc (h.container hc)).of_container hbecomes')⟩

/-! ## Edits -/

/-- A node below the first element of the root is not a child of the root. -/
theorem parent_ne_root (hd : d.Rooted f) {top p : Node} (hfirst : f.firstElement? d.root = some top)
    (hbelow : top ∈ f.ancestors n) (hp : f.parent n = some p) : p ≠ d.root := by
  rintro rfl
  rw [hd.wellFormed.ancestors_of_parent hp, hd.ancestors_root, List.mem_singleton] at hbelow
  exact hd.wellFormed.ne_of_mem_children (List.mem_of_find?_eq_some hfirst) hbelow

/-- A start becomes what it does when an element is wrapped. -/
theorem WrappedIn.led {p x : Node} {left right : List Node}
    (h : WrappedIn s.forest s'.forest p left n x right) (hd : d.Rooted s.forest)
    (hmade : x ∈ s'.made)
    (hcarried : Carried s.forest s'.forest d (Boundary.MovesWrapped p left n x))
    (hf : Range.Follows (Boundary.MovesWrapped p left n x) s.forest s'.forest d r r') :
    Led s s' r r' := by
  have wf := hd.wellFormed
  have habove := h.unnoticed.replaced.wellFormed.effectiveParent?_eq_nearest h.parent_wrapper
  have hwrapper : ∀ {n : Node}, p = r.start.container →
      s'.Becomes r.start.container n x := by
    rintro n rfl
    exact .wrapper hmade h.isIgnored habove
  have hhas := wf.has_of_within hd.has_root hf.sound.start_within
  refine ⟨fun ht => ?_, fun _ => ?_, fun hc e he => ?_⟩
  · rcases moves hf.start with hstart | hin
    · rw [hstart]
      exact ⟨(hcarried.transparent.isText_eq hhas).trans ht, hcarried.transparent.parent_eq _ hhas⟩
    · have hn := h.unnoticed.replaced.mem_old (List.mem_singleton_self n)
      rw [hin.containers.1, wf.not_isText_of_mem_children hn] at ht
      cases ht
  · rcases moves hf.start with hstart | hin
    · rw [hstart]
      exact .same
    · rw [hin.containers.2]
      exact hwrapper hin.containers.1.symm
  · obtain ⟨e', he', rfl | ⟨rfl, hp⟩⟩ := h.startElement_wrapped hd hcarried hf hc he
    · exact ⟨e', he', .same⟩
    · exact ⟨e', he', hwrapper hp⟩

/-- A start becomes what it does when a text is cut. -/
theorem led_of_cut {t p x u : Node} {left right : List Node} {k : Nat} {tag : String}
    (hd : d.Rooted s.forest) (ht : s.forest.isText t = true) (hp : s.forest.isElement p = true)
    (hr : Replaced s.forest s'.forest p left [t] [t, x, u] right)
    (hm : Marked s.forest s'.forest p t x u k tag)
    (hcarried : Carried s.forest s'.forest d (Boundary.MovesCut p left t x u k))
    (hf : Range.Follows (Boundary.MovesCut p left t x u k) s.forest s'.forest d r r') :
    Led s s' r r' := by
  have wf := hd.wellFormed
  have wf' := hr.wellFormed
  have hhas := wf.has_of_within hd.has_root hf.sound.start_within
  refine ⟨fun htext => ?_, fun hc => ?_, fun hc e he =>
    ⟨e, startElement_cut hd ht hp hr hm hcarried hf hc he, .same⟩⟩
  · have htext' := (hcarried.transparent.isText_eq hhas).trans htext
    have habove := hcarried.transparent.parent_eq _ hhas
    obtain hcontainer | ⟨hcontainer, htail⟩ := container_of_cut hf.start
    · rw [hcontainer]
      exact ⟨htext', habove⟩
    · -- both parts of the text are below one element
      rw [← habove, htail, hcontainer, wf'.effectiveParent?_eq_nearest hm.parent_text,
        wf'.effectiveParent?_eq_nearest hm.parent_tail]
      exact ⟨hm.isText_tail, rfl⟩
  · rw [(moves_of_cut (container_ne_text ht hc) hf.start).1]
    exact .same

/-- **An edit below the first element** moves boundaries in order, and starts of ranges become what
they may. -/
theorem InnerStep.carried (h : InnerStep d s s') (hd : d.Rooted s.forest) :
    ∃ M, Carried s.forest s'.forest d M ∧
      ∀ r r', Range.Follows M s.forest s'.forest d r r' → Led s s' r r' := by
  have wf := hd.wellFormed
  have hrefused : s'.forest = s.forest → ∃ M, Carried s.forest s'.forest d M ∧
      ∀ r r', Range.Follows M s.forest s'.forest d r r' → Led s s' r r' := by
    intro hforest
    refine ⟨Eq, by rw [hforest]; exact .refl hd, fun r r' hf => ?_⟩
    obtain ⟨start, stop⟩ := r
    obtain ⟨start', stop'⟩ := r'
    cases hf.start
    cases hf.stop
    exact .of_eq hforest
  cases h with
  | @wrap n tag top result g first below element edit =>
    cases hp : s.forest.parent n with
    | none =>
      rw [wrap_refused hp, Prod.mk.injEq] at edit
      exact hrefused edit.2.symm
    | some p =>
      obtain ⟨left, right, hsplit⟩ := List.append_of_mem (wf.mem_of_parent hp)
      obtain ⟨g₁, hwrap₁, hmarked, -, hquiet⟩ := wrap_quiet wf element hsplit tag
      obtain ⟨g₂, hwrap₂, -, -, -, hchild, -⟩ := wrap_eq wf hsplit tag
      obtain ⟨-, rfl⟩ := Prod.mk.inj (hwrap₁.symm.trans hwrap₂)
      obtain ⟨rfl, rfl⟩ := Prod.mk.inj (hwrap₁.symm.trans edit)
      have hwrapped : WrappedIn s.forest g₁ p left n s.forest.fresh right :=
        ⟨hquiet, s.forest.not_has_fresh, hchild, tag, hmarked⟩
      have hcarried := Carried.of_shift (wrap_shift wf hquiet hchild hwrapped.isElement) hd
        (parent_ne_root hd first below hp)
      exact ⟨_, hcarried, fun r r' hf => hwrapped.led hd List.mem_cons_self hcarried hf⟩
  | @mark t k tag p result g text above element edit =>
    obtain hk | ⟨-, hforest⟩ := insertMarked_result edit
    · obtain ⟨left, right, hsplit⟩ := List.append_of_mem (wf.mem_of_parent above)
      obtain ⟨g', x, hinsert, hr, hm⟩ := insertMarked_eq wf text hk hsplit tag
      obtain ⟨rfl, rfl⟩ := Prod.mk.inj (hinsert.symm.trans edit)
      have hp : p ≠ d.root := by
        rintro rfl
        rw [hd.not_isElement_root] at element
        cases element
      have hcarried := Carried.of_shift (hm.shift wf text hk element hr) hd hp
      exact ⟨_, hcarried, fun r r' hf => led_of_cut hd text element hr hm hcarried hf⟩
    · exact hrefused hforest

/-! ## Runs -/

section Run

variable (hd : d.Rooted f) (h : DecoratedBelow f d s)

include hd h

/-- The first element stays where it is. -/
theorem DecoratedBelow.first : s.forest.firstElement? d.root = f.firstElement? d.root := by
  induction h with
  | refl => rfl
  | @tail s s' hrun hstep ih =>
    have hfaithful := (DecoratedBelow.decorated hrun).faithful hd
    obtain ⟨M, hcarried, -⟩ := hstep.carried hfaithful.rooted
    exact hcarried.first.trans ih

/-- **An address that is resolved** is resolved after any run of edits, and the start of its range
has become what it may. -/
theorem DecoratedBelow.resolve {o : Options} {address : String}
    (hr : Address.resolve f d o address = .ok r) :
    ∃ r', Address.resolve s.forest d o address = .ok r' ∧ Led (State.start f) s r r' := by
  have hsound := (resolve_sound hd o address).of_eq_ok hr
  have hhas := hd.wellFormed.has_of_within hd.has_root hsound.start_within
  induction h with
  | refl => exact ⟨r, hr, .of_eq rfl⟩
  | @tail s s' hrun hstep ih =>
    obtain ⟨r', hr', hled⟩ := ih
    have hfaithful := (DecoratedBelow.decorated hrun).faithful hd
    obtain ⟨M, hcarried, hM⟩ := hstep.carried hfaithful.rooted
    obtain ⟨r'', hr'', hfollows⟩ := hcarried.resolve hfaithful.rooted hr'
    exact ⟨r'', hr'', hled.tail (hM r' r'' hfollows) hfaithful.transparent hcarried.transparent
      hstep.made_subset hhas⟩

end Run

end Decoration

namespace Address

open Forest Decoration

variable {f : Forest} {d : Document} {o : Options} {s : State} {address : String} {e n : Node}
  {r : Range}

/-! ## Elements of addresses -/

/-- The element of an address whose first entry has the range around an element is that element. -/
theorem resolveElement_of_around (wf : f.WellFormed) {p : Node} (he : e ∈ f.children p)
    (helement : f.isElement e = true) {entry : Location} {rest : Context}
    (hvalue : evaluate f d o address = .ok (entry :: rest)) (hplace : entry.isPlace = true)
    (haround : entry.toRange f = Location.rangeAround f e) :
    resolveElement f d o address = .ok e := by
  simp only [resolveElement, resolve, hvalue, bind, Except.bind, hplace, if_true, haround,
    (wf.rangeAround_child he).1, startNode_around wf he helement, helement]

/-- An element in the document stands for itself. -/
theorem resolveElement_of_element (hd : d.Rooted f) (hw : f.Within d.root n)
    (helement : f.isElement n = true) {rest : Context}
    (hvalue : evaluate f d o address = .ok (.node n :: rest)) :
    resolveElement f d o address = .ok n := by
  have hne : n ≠ d.root := by
    rintro rfl
    rw [hd.not_isElement_root] at helement
    cases helement
  obtain ⟨p, hp, -⟩ := hd.wellFormed.exists_parent hw hne
  exact resolveElement_of_around hd.wellFormed (hd.wellFormed.mem_of_parent hp) helement hvalue rfl
    rfl

/-- The first element stands for the root. -/
theorem resolveElement_of_root (hd : d.Rooted f) (hfirst : f.firstElement? d.root = some e)
    {rest : Context} (hvalue : evaluate f d o address = .ok (.node d.root :: rest)) :
    resolveElement f d o address = .ok e := by
  refine resolveElement_of_around hd.wellFormed (List.mem_of_find?_eq_some hfirst)
    (List.find?_some hfirst) hvalue rfl ?_
  rw [Location.toRange, hd.wellFormed.rangeAround_of_top hd.parent_root, hfirst]

/-- The element of a start in a text is the one around the text. -/
theorem startElement_of_text (hd : d.Rooted f) (hunmarked : d.IsUnmarked f)
    (htext : d.TextInElements f) (hw : f.Within d.root r.start.container)
    (ht : f.isText r.start.container = true) :
    ∃ p, f.effectiveParent? r.start.container = some p ∧ f.isElement p = true ∧
      startElement f r = .ok p := by
  obtain ⟨p, hp, hpw⟩ := hd.exists_parent_of_isText hw ht
  have helement := htext _ p hw ht hp
  have habove : f.effectiveParent? r.start.container = some p := by
    rw [hd.wellFormed.effectiveParent?_eq_nearest hp, nearest?, hunmarked.not_isIgnored hpw]
    rfl
  exact ⟨p, habove, helement, startElement_of_isElement (startNode_of_isText ht habove) helement⟩

/-- The address of an element or of the root gives the same element after any run of edits. -/
theorem resolveElement_decorated_node (hd : d.Rooted f) (h : DecoratedBelow f d s)
    (he : resolveElement f d o address = .ok e) {rest : Context}
    (hvalue : evaluate f d o address = .ok (.node n :: rest))
    (hn : f.isElement n = true ∨ n = d.root) :
    resolveElement s.forest d o address = .ok e := by
  have hfaithful := h.decorated.faithful hd
  have hagrees := evaluate_agrees (hfaithful.alike hd) o address
  rw [hvalue] at hagrees
  generalize hvalue' : evaluate s.forest d o address = value at hagrees
  cases hagrees with
  | ok hmatches =>
    cases hmatches with
    | cons hfirst _ =>
      cases hfirst with
      | node hreaches =>
        rcases hn with helement | rfl
        · obtain rfl := Except.ok.inj
            ((resolveElement_of_element hd hreaches.1 helement hvalue).symm.trans he)
          have helement' :=
            (hfaithful.transparent.isElement_eq (has_of_isElement helement)).trans helement
          exact resolveElement_of_element hfaithful.rooted (hfaithful.within hd hreaches.1)
            helement' hvalue'
        · cases hfirst : f.firstElement? d.root with
          | none =>
            simp [resolveElement, resolve, hvalue, bind, Except.bind, Location.isPlace,
              Location.toRange, hd.wellFormed.rangeAround_of_top hd.parent_root, hfirst] at he
          | some top =>
            obtain rfl := Except.ok.inj ((resolveElement_of_root hd hfirst hvalue).symm.trans he)
            exact resolveElement_of_root hfaithful.rooted ((h.first hd).trans hfirst) hvalue'

/-- The element of a start is the one that it was, or a wrapper in the node in which the range
started; and it is the one that it was if that node is a text. -/
theorem startElement_decorated (hd : d.Rooted f) (hunmarked : d.IsUnmarked f)
    (htext : d.TextInElements f) (h : DecoratedBelow f d s) {r' : Range}
    (hw : f.Within d.root r.start.container) (hanchored : r.start.Anchored f)
    (hled : Led (State.start f) s r r') (he : startElement f r = .ok e) :
    ∃ e', startElement s.forest r' = .ok e' ∧
      (e' = e ∨ e' ∈ s.made ∧ s.forest.effectiveParent? e' = some r.start.container) ∧
      (f.isText r.start.container = true → e' = e) := by
  have hfaithful := h.decorated.faithful hd
  rcases hanchored with hc | ht
  · obtain ⟨e', he', hbecomes⟩ := hled.element hc e he
    refine ⟨e', he', ?_, fun ht => ?_⟩
    · cases hbecomes with
      | same => exact .inl rfl
      | wrapper made _ above =>
        have hhas := hd.wellFormed.has_of_within hd.has_root hw
        have hcontent := hfaithful.transparent.content_eq _ hhas (not_isText_of_isContainer hc)
        rw [nearest?, isIgnored_congr hcontent, hunmarked.not_isIgnored hw] at above
        exact .inr ⟨made, above⟩
    · rw [not_isText_of_isContainer hc] at ht
      cases ht
  · obtain ⟨p, hp, helement, hstart⟩ := startElement_of_text hd hunmarked htext hw ht
    obtain ⟨ht', hp'⟩ := hled.text ht
    obtain rfl := Except.ok.inj (hstart.symm.trans he)
    have helement' :=
      (hfaithful.transparent.isElement_eq (has_of_isElement helement)).trans helement
    exact ⟨_, startElement_of_isElement (startNode_of_isText ht' (hp'.trans hp)) helement',
      .inl rfl, fun _ => rfl⟩

/-- **The element of an address in a decorated document.** After any run of edits below the first
element an address that was resolved to an element is resolved to one. It is the same element, or a
wrapper that was made and stands in the node in which the range started; and it is the same one if
the range started in a text, or if the address is one of an element or of the root. -/
theorem resolveElement_decorated (hd : d.Rooted f) (hunmarked : d.IsUnmarked f)
    (htext : d.TextInElements f) (h : DecoratedBelow f d s)
    (hresolve : resolveElement f d o address = .ok e) :
    ∃ r e', resolve f d o address = .ok r ∧ resolveElement s.forest d o address = .ok e' ∧
      (e' = e ∨ e' ∈ s.made ∧ s.forest.effectiveParent? e' = some r.start.container) ∧
      (f.isText r.start.container = true → e' = e) ∧
      (∀ n rest, evaluate f d o address = .ok (.node n :: rest) →
        f.isElement n = true ∨ n = d.root → e' = e) := by
  have he := hresolve
  rw [resolveElement_eq] at he
  cases hr : resolve f d o address with
  | error fault =>
    rw [hr] at he
    cases he
  | ok r =>
    rw [hr] at he
    obtain ⟨r', hr', hled⟩ := h.resolve hd hr
    obtain ⟨_, -, hfollows⟩ := (Carried.refl hd).resolve hd hr
    obtain ⟨e', he', hcase, htextCase⟩ := startElement_decorated hd hunmarked htext h
      hfollows.sound.start_within hfollows.start_anchored hled he
    have hresolved : resolveElement s.forest d o address = .ok e' := by
      rw [resolveElement_eq, hr']
      exact he'
    refine ⟨r, e', rfl, hresolved, hcase, htextCase, fun n rest hvalue hn => ?_⟩
    have hsame := resolveElement_decorated_node hd h hresolve hvalue hn
    exact Except.ok.inj (hresolved.symm.trans hsame)

/-- In `<r><e>def</e>ghi</r>` the `e` is wrapped. -/
theorem cited_decorated :
    ∃ s, DecoratedBelow cited ⟨⟨0⟩, .xml⟩ s ∧ s.forest = citedWrapped ∧ s.made = [⟨5⟩] := by
  have hfirst : (State.start cited).forest.firstElement? ⟨0⟩ = some ⟨1⟩ := by decide
  have hrun : DecoratedBelow cited ⟨⟨0⟩, .xml⟩ _ :=
    .single (.wrap ⟨2⟩ "m" hfirst (by decide) (by decide) rfl)
  exact ⟨_, hrun, by decide, by decide⟩

theorem cited_textInElements : Document.TextInElements cited ⟨⟨0⟩, .xml⟩ :=
  cited_rooted.textInElements_of_check (by decide)

theorem cited_unmarked : Document.IsUnmarked cited ⟨⟨0⟩, .xml⟩ :=
  cited_rooted.forall_within (by decide)

/-- The point before the `e` is in the `r`, and then in the wrapper, which is in the `r`. -/
theorem resolveElement_decorated_cited : ∃ s, DecoratedBelow cited ⟨⟨0⟩, .xml⟩ s ∧
    resolveElement cited ⟨⟨0⟩, .xml⟩ .standard "start-point(/r/e)" = .ok ⟨1⟩ ∧
    resolveElement s.forest ⟨⟨0⟩, .xml⟩ .standard "start-point(/r/e)" = .ok ⟨5⟩ ∧
    ∃ r e', resolve cited ⟨⟨0⟩, .xml⟩ .standard "start-point(/r/e)" = .ok r ∧
      resolveElement s.forest ⟨⟨0⟩, .xml⟩ .standard "start-point(/r/e)" = .ok e' ∧
      (e' = ⟨1⟩ ∨ e' ∈ s.made ∧ s.forest.effectiveParent? e' = some r.start.container) ∧
      (cited.isText r.start.container = true → e' = ⟨1⟩) ∧
      (∀ n rest, evaluate cited ⟨⟨0⟩, .xml⟩ .standard "start-point(/r/e)" = .ok (.node n :: rest) →
        cited.isElement n = true ∨ n = ⟨0⟩ → e' = ⟨1⟩) := by
  obtain ⟨s, hs, hforest, -⟩ := cited_decorated
  have helement : resolveElement cited ⟨⟨0⟩, .xml⟩ .standard "start-point(/r/e)" = .ok ⟨1⟩ := by
    decide
  refine ⟨s, hs, helement, ?_,
    resolveElement_decorated cited_rooted cited_unmarked cited_textInElements hs helement⟩
  rw [hforest]
  decide

/-- The point before the `e` does not stay in the `r`. -/
theorem not_resolveElement_decorated :
    ¬ ∀ (f : Forest) (d : Document) (o : Options) (s : State) (address : String) (e : Node),
      d.Rooted f → d.IsUnmarked f → d.TextInElements f → DecoratedBelow f d s →
      resolveElement f d o address = .ok e → resolveElement s.forest d o address = .ok e := by
  intro h
  obtain ⟨s, hs, hforest, -⟩ := cited_decorated
  have hsame := h cited ⟨⟨0⟩, .xml⟩ .standard s "start-point(/r/e)" ⟨1⟩ cited_rooted cited_unmarked
    cited_textInElements hs (by decide)
  rw [hforest] at hsame
  revert hsame
  decide

end Address

end TreePointer
