import TreePointer.Address.Composition
import TreePointer.Proofs.Address.Twins

/-!
# Twins are given the same addresses

An address is made of ids, tags, child numbers and counts of characters. Documents that are twins
give the same for each of these, and boundaries of a selection are moved alike in them, so an
address that is made in the one is made in the other, and with the same fault if it cannot be made.

* `Selection.Corresponds`: selections of places that are identified.
* `Twins.elementPath_eq`, `Twins.betweenTexts_eq`: the addresses of elements and of texts.
* `Twins.descendStart`, `Twins.descendEnd`: boundaries are moved alike.
* `Twins.create_eq`: the address of a selection.
-/

namespace TreePointer

/-- What goes on to the same result from what is related gives the same result. -/
theorem Agrees.bind_eq {α β γ : Type} {R : α → β → Prop} {x : Except Fault α} {y : Except Fault β}
    {h : α → Except Fault γ} {k : β → Except Fault γ} (hxy : Agrees R x y)
    (hhk : ∀ a b, R a b → k b = h a) : y >>= k = x >>= h := by
  cases hxy with
  | ok hab => exact hhk _ _ hab
  | error e => rfl

/-- Selections of boundaries that correspond. -/
inductive Selection.Corresponds (M : Node → Node → Prop) : Selection → Selection → Prop
  | anchorFocus {a a' b b' : Boundary} (ha : a.Corresponds M a') (hb : b.Corresponds M b') :
    Selection.Corresponds M (.anchorFocus a b) (.anchorFocus a' b')
  | range {r r' : Range} (hr : r.Corresponds M r') :
    Selection.Corresponds M (.range r) (.range r')

/-- Boundaries that correspond are equal where their counterparts are. -/
theorem Boundary.Corresponds.eq_iff {M : Node → Node → Prop} {a a' b b' : Boundary}
    (hM : Relator.BiUnique M) (ha : a.Corresponds M a') (hb : b.Corresponds M b') :
    a' = b' ↔ a = b := by
  rw [Boundary.mk.injEq, Boundary.mk.injEq, ha.offset_eq, hb.offset_eq]
  exact and_congr_left' (Relator.rel_eq hM ha.container hb.container).symm

namespace Forest.Copied

variable {f g : Forest} {M : Node → Node → Prop} {n n' : Node} {a a' b b' : Boundary}
  {ns ns' : List Node} (h : f.Copied g M)

include h

/-! ## Moving boundaries -/

theorem entryPoint (hn : M n n') :
    Agrees (Boundary.Corresponds M) (Address.entryPoint f n) (Address.entryPoint g n') := by
  rw [Address.entryPoint, Address.entryPoint, (h.same n n' hn).isText_eq]
  split
  · exact .ok ⟨hn, rfl⟩
  · exact h.before hn

theorem exitPoint (hn : M n n') :
    Agrees (Boundary.Corresponds M) (Address.exitPoint f n) (Address.exitPoint g n') := by
  rw [Address.exitPoint, Address.exitPoint, (h.same n n' hn).isText_eq]
  split
  · exact .ok ⟨hn, h.length_eq hn⟩
  · exact h.after hn

theorem firstContent (hns : List.Forall₂ M ns ns') :
    Option.Rel M (Address.firstContent? f ns) (Address.firstContent? g ns') :=
  forall₂_find? hns fun n n' hn => by
    rw [(h.same n n' hn).isText_eq, (h.same n n' hn).isElement_eq]

/-- The children behind a boundary. -/
theorem childrenBehind (hb : b.Corresponds M b') :
    List.Forall₂ M ((f.children b.container).drop b.offset)
      ((g.children b'.container).drop b'.offset) := by
  rw [hb.offset_eq]
  exact List.forall₂_drop _ (h.children _ _ hb.container)

/-- The children ahead of a boundary, nearest first. -/
theorem childrenAhead (hb : b.Corresponds M b') :
    List.Forall₂ M ((f.children b.container).take b.offset).reverse
      ((g.children b'.container).take b'.offset).reverse := by
  rw [hb.offset_eq]
  exact List.forall₂_reverse_iff.mpr (List.forall₂_take _ (h.children _ _ hb.container))

theorem elementAfter (hb : b.Corresponds M b') :
    Agrees M (Address.elementAfter f b) (Address.elementAfter g b') := by
  have hfound := forall₂_find? (h.childrenBehind hb) fun n n' hn => (h.same n n' hn).isElement_eq
  rw [Address.elementAfter, Address.elementAfter]
  rcases option_rel_cases hfound with ⟨he, he'⟩ | ⟨e, e', he, he', hee⟩
  · rw [he, he']
    exact .error _
  · rw [he, he']
    exact .ok hee

theorem elementBefore (hb : b.Corresponds M b') :
    Agrees M (Address.elementBefore f b) (Address.elementBefore g b') := by
  have hfound := forall₂_find? (h.childrenAhead hb) fun n n' hn => (h.same n n' hn).isElement_eq
  rw [Address.elementBefore, Address.elementBefore]
  rcases option_rel_cases hfound with ⟨he, he'⟩ | ⟨e, e', he, he', hee⟩
  · rw [he, he']
    exact .error _
  · rw [he, he']
    exact .ok hee

variable (wf : f.WellFormed) (wf' : g.WellFormed)

include wf wf'

theorem leaveMarked {beside beside' : Option Node} (hb : b.Corresponds M b')
    (hbeside : Option.Rel M beside beside') : Agrees (Boundary.Corresponds M)
      (Address.leaveMarked f b beside) (Address.leaveMarked g b' beside') := by
  have hsame := h.same _ _ hb.container
  have hmarked : Option.Rel M
      (if f.isIgnored b.container then some b.container else beside.filter f.isIgnored)
      (if f.isIgnored b.container then some b'.container else beside'.filter g.isIgnored) := by
    split
    · exact .some hb.container
    · cases hbeside with
      | none => exact .none
      | @some n n' hn =>
        rw [Option.filter_some, Option.filter_some, (h.same n n' hn).isIgnored_eq]
        split
        · exact .some hn
        · exact .none
  simp only [Address.leaveMarked, hsame.isElement_eq, hsame.isIgnored_eq]
  split
  · exact .ok hb
  · rcases option_rel_cases (option_rel_bind hmarked fun n n' hn => h.nextUnmarked wf wf' hn) with
      ⟨hn, hn'⟩ | ⟨n, n', hn, hn', hnn⟩
    · rw [hn, hn']
      exact .ok hb
    · rw [hn, hn']
      exact h.entryPoint hnn

theorem leaveMarkedStart (hb : b.Corresponds M b') : Agrees (Boundary.Corresponds M)
    (Address.leaveMarkedStart f b) (Address.leaveMarkedStart g b') := by
  refine h.leaveMarked wf wf' hb ?_
  rw [hb.offset_eq]
  exact h.childAt hb.container _

theorem leaveMarkedEnd (hb : b.Corresponds M b') : Agrees (Boundary.Corresponds M)
    (Address.leaveMarkedEnd f b) (Address.leaveMarkedEnd g b') := by
  refine h.leaveMarked wf wf' hb ?_
  rw [hb.offset_eq]
  split
  · exact .none
  · exact h.childAt hb.container _

/-- **A start** is moved to the same content. -/
theorem descendStart (hb : b.Corresponds M b') : Agrees (Boundary.Corresponds M)
    (Address.descendStart f b) (Address.descendStart g b') := by
  have hcontent := h.firstContent (h.childrenBehind hb)
  have hnext := h.following wf wf' hb.container
  rw [Address.descendStart, Address.descendStart, (h.same _ _ hb.container).isText_eq]
  split
  · exact .ok hb
  · rcases option_rel_cases hcontent with ⟨hc, hc'⟩ | ⟨c, c', hc, hc', hcc⟩
    · rw [hc, hc']
      rcases option_rel_cases hnext with ⟨hn, hn'⟩ | ⟨n, n', hn, hn', hnn⟩
      · rw [hn, hn']
        exact .ok hb
      · rw [hn, hn']
        exact h.entryPoint hnn
    · rw [hc, hc']
      dsimp only
      rw [(h.same c c' hcc).isText_eq]
      split
      · exact .ok ⟨hcc, rfl⟩
      · exact .ok hb

/-- **An end** is moved to the same content. -/
theorem descendEnd (hb : b.Corresponds M b') : Agrees (Boundary.Corresponds M)
    (Address.descendEnd f b) (Address.descendEnd g b') := by
  have hcontent := h.firstContent (h.childrenAhead hb)
  have hprevious := h.preceding wf wf' hb.container
  rw [Address.descendEnd, Address.descendEnd, (h.same _ _ hb.container).isText_eq]
  split
  · exact .ok hb
  · rcases option_rel_cases hcontent with ⟨hc, hc'⟩ | ⟨c, c', hc, hc', hcc⟩
    · rw [hc, hc']
      rcases option_rel_cases hprevious with ⟨hn, hn'⟩ | ⟨n, n', hn, hn', hnn⟩
      · rw [hn, hn']
        exact .ok hb
      · rw [hn, hn']
        exact h.exitPoint hnn
    · rw [hc, hc']
      dsimp only
      rw [(h.same c c' hcc).isText_eq]
      split
      · exact .ok ⟨hcc, h.length_eq hcc⟩
      · exact .ok hb

theorem settleStart (hb : b.Corresponds M b') :
    (Address.settleStart f b).Corresponds M (Address.settleStart g b') := by
  have hnext := h.nextVisible wf wf' hb.container
  rw [Address.settleStart, Address.settleStart, hb.offset_eq, h.length_eq hb.container]
  split
  · rcases option_rel_cases hnext with ⟨hn, hn'⟩ | ⟨n, n', hn, hn', hnn⟩
    · rw [hn, hn']
      exact hb
    · rw [hn, hn']
      exact ⟨hnn, rfl⟩
  · exact hb

theorem settleEnd (hb : b.Corresponds M b') :
    (Address.settleEnd f b).Corresponds M (Address.settleEnd g b') := by
  have hprevious := h.previousVisible wf wf' hb.container
  rw [Address.settleEnd, Address.settleEnd, hb.offset_eq]
  split
  · rcases option_rel_cases hprevious with ⟨hn, hn'⟩ | ⟨n, n', hn, hn', hnn⟩
    · rw [hn, hn']
      exact hb
    · rw [hn, hn']
      exact ⟨hnn, h.length_eq hnn⟩
  · exact hb

/-- The boundaries of a selection are put in the same order. -/
theorem ends {s s' : Selection} (hs : s.Corresponds M s') :
    Agrees (fun x y => x.1.Corresponds M y.1 ∧ x.2.Corresponds M y.2) (s.ends f) (s'.ends g) := by
  cases hs with
  | range hr => exact .ok ⟨hr.start, hr.stop⟩
  | @anchorFocus a a' b b' ha hb =>
    rw [Selection.ends, Selection.ends, h.check_eq ha, h.check_eq hb, h.compare_eq wf wf' ha hb]
    cases a.check f with
    | error e => exact .error e
    | ok =>
      cases b.check f with
      | error e => exact .error e
      | ok =>
        cases a.compare f b with
        | error e => exact .error e
        | ok o =>
          cases o
          · exact .ok ⟨ha, hb⟩
          · exact .ok ⟨ha, hb⟩
          · exact .ok ⟨hb, ha⟩

end Forest.Copied

namespace Document.Twins

open Address

variable {f g : Forest} {d d' : Document} {M : Node → Node → Prop} {n n' p p' : Node}
  {a a' b b' : Boundary} (h : Document.Twins f g d d' M) (o : Options)

include h

/-! ## Elements -/

theorem tagOf_eq (hn : M n n') : tagOf g d' n' = tagOf f d n := by
  rw [tagOf, tagOf, h.tag_eq n n' hn, (h.copied.same n n' hn).kind_eq]

theorem documentElement : Agrees M (d.documentElement f) (d'.documentElement g) := by
  rw [Document.documentElement, Document.documentElement]
  rcases option_rel_cases (h.copied.firstElement h.root) with ⟨he, he'⟩ | ⟨e, e', he, he', hee⟩
  · rw [he, he']
    exact .error _
  · rw [he, he']
    exact .ok hee

theorem idReference?_eq (hn : M n n') : idReference? g d' n' = idReference? f d n := by
  have hsame := h.copied.same n n' hn
  have hfound (id : String) : d'.elementById? g id = some n' ↔ d.elementById? f id = some n :=
    option_rel_some_iff h.copied.one_to_one (h.copied.elementById h.wf h.wf' h.root id) hn
  simp only [idReference?, hsame.isElement_eq, hsame.isIgnored_eq, hsame.attribute?_eq, ne_eq,
    hfound]

theorem pathStep_eq (hp : M p p') (hn : M n n') : pathStep g d' p' n' = pathStep f d p n := by
  have hposition (tag : String) :
      g.positionOf? p' n' (d'.hasTag g tag) = f.positionOf? p n (d.hasTag f tag) :=
    h.copied.positionOf?_eq h.wf h.wf' hp hn fun _ _ hc => h.hasTag_eq hc tag
  simp only [pathStep, h.tagOf_eq hn, hposition]

/-- The steps through ancestors that correspond are the same. -/
theorem pathThrough_eq {above above' : List Node} (habove : List.Forall₂ M above above')
    (hn : M n n') (below : List String) :
    pathThrough g d' o n' below above' = pathThrough f d o n below above := by
  induction habove generalizing n n' below with
  | nil => rfl
  | @cons p p' _ _ hp _ ih =>
    simp only [pathThrough, h.pathStep_eq hp hn, (h.copied.same p p' hp).isElement_eq,
      h.idReference?_eq hp, ih hp]

/-- **The address of an element** is the same. -/
theorem elementPath_eq (hn : M n n') : elementPath g d' o n' = elementPath f d o n := by
  have hdocument : d'.documentElement g >>= tagOf g d' = d.documentElement f >>= tagOf f d :=
    h.documentElement.bind_eq fun _ _ he => h.tagOf_eq he
  have hthrough := h.pathThrough_eq o (h.copied.effectiveAncestors h.wf h.wf' hn) hn []
  simp only [elementPath, (h.copied.same n n' hn).kind_eq, h.idReference?_eq hn, hthrough,
    ← bind_assoc, hdocument]

theorem wholeDocument_eq : wholeDocument g d' = wholeDocument f d :=
  h.documentElement.bind_eq fun _ _ he => by rw [h.tagOf_eq he]

/-! ## Places in a text -/

theorem elementAbove (hn : M n n') :
    Agrees M (Address.elementAbove f d n) (Address.elementAbove g d' n') := by
  rw [Address.elementAbove, Address.elementAbove]
  rcases option_rel_cases (h.copied.effectiveParent h.wf h.wf' hn) with
    ⟨hp, hp'⟩ | ⟨p, p', hp, hp', hpp⟩
  · rw [hp, hp']
    exact .error _
  · have hsame := h.copied.same p p' hpp
    simp only [hp, hp', hsame.isElement_eq, hsame.kind_eq]
    split
    · exact .ok hpp
    · split
      · exact h.documentElement
      · exact .error _

theorem stringRange_eq (hn : M n n') (start length : Nat) :
    Address.stringRange g d' o n' start length = Address.stringRange f d o n start length := by
  rw [Address.stringRange, h.elementPath_eq o hn, Address.stringRange]

theorem countBefore_eq (hn : M n n') (hb : b.Corresponds M b') :
    g.countBefore n' b'.container b'.offset = f.countBefore n b.container b.offset := by
  rw [hb.offset_eq]
  exact h.copied.countBefore_eq h.wf h.wf' hn hb.container _

theorem startPoint_eq (hb : b.Corresponds M b') : startPoint g d' o b' = startPoint f d o b :=
  (h.elementAbove hb.container).bind_eq fun _ _ he => by
    simp only [h.countBefore_eq he hb, h.stringRange_eq o he]

theorem endPoint_eq (hb : b.Corresponds M b') : endPoint g d' o b' = endPoint f d o b :=
  (h.elementAbove hb.container).bind_eq fun _ _ he => by
    simp only [h.countBefore_eq he hb, h.stringRange_eq o he]

theorem textStretch_eq (ha : a.Corresponds M a') (hb : b.Corresponds M b') :
    textStretch g d' o a' b' = textStretch f d o a b :=
  (h.elementAbove ha.container).bind_eq fun _ _ he => by
    simp only [h.countBefore_eq he ha, h.countBefore_eq he hb, h.stringRange_eq o he]

/-- **The address of a stretch of text** is the same. -/
theorem betweenTexts_eq (ha : a.Corresponds M a') (hb : b.Corresponds M b') :
    betweenTexts g d' o a' b' = betweenTexts f d o a b := by
  have hstart := h.copied.settleStart h.wf h.wf' ha
  have hstop := h.copied.settleEnd h.wf h.wf' hb
  unfold betweenTexts
  simp only [h.copied.compare_eq h.wf h.wf' hstart hstop]
  refine bind_congr fun order => ?_
  cases order with
  | gt => exact h.textStretch_eq o hstart hstart
  | lt | eq =>
    refine (h.elementAbove hstart.container).bind_eq fun e e' he => ?_
    refine (h.elementAbove hstop.container).bind_eq fun m m' hm => ?_
    simp only [h.copied.eq_iff hstart.container hstop.container, h.copied.eq_iff he hm,
      h.textStretch_eq o hstart hstop, h.startPoint_eq o hstart, h.endPoint_eq o hstop]

/-! ## Selections -/

theorem between_eq (ha : a.Corresponds M a') (hb : b.Corresponds M b') :
    between g d' o a' b' = between f d o a b := by
  refine (h.copied.leaveMarkedEnd h.wf h.wf' hb).bind_eq fun b b' hb => ?_
  refine (h.copied.leaveMarkedStart h.wf h.wf' ha).bind_eq fun a a' ha => ?_
  refine (h.copied.descendStart h.wf h.wf' ha).bind_eq fun a a' ha => ?_
  refine (h.copied.descendEnd h.wf h.wf' hb).bind_eq fun b b' hb => ?_
  have hbefore := h.copied.elementBefore hb
  have hafter := h.copied.elementAfter ha
  rw [(h.copied.same _ _ ha.container).isText_eq, (h.copied.same _ _ hb.container).isText_eq]
  -- the four cases of `between`: each end in a text or beside an element
  cases f.isText a.container <;> cases f.isText b.container
  · refine hafter.bind_eq fun e e' he => hbefore.bind_eq fun m m' hm => ?_
    simp only [h.elementPath_eq o he, h.elementPath_eq o hm, h.copied.eq_iff he hm]
  · refine hafter.bind_eq fun e e' he => ?_
    rw [h.elementPath_eq o he, h.endPoint_eq o (h.copied.settleEnd h.wf h.wf' hb)]
  · rw [h.startPoint_eq o (h.copied.settleStart h.wf h.wf' ha)]
    refine bind_congr fun first => hbefore.bind_eq fun e e' he => ?_
    rw [h.elementPath_eq o he]
  · exact h.betweenTexts_eq o ha hb

theorem contains_eq (hn : M n n') : d'.contains g n' = d.contains f n := by
  rw [Document.contains, Document.contains, h.copied.isAncestor_eq h.wf h.wf' h.root hn,
    Bool.eq_iff_iff, Bool.or_eq_true, Bool.or_eq_true, beq_iff_eq, beq_iff_eq,
    h.copied.eq_iff hn h.root]

/-- **The address of a selection** is the same in twins. -/
theorem create_eq {s s' : Selection} (hs : s.Corresponds M s') :
    create g d' o s' = create f d o s := by
  refine (h.copied.ends h.wf h.wf' hs).bind_eq fun ⟨a, b⟩ ⟨a', b'⟩ ⟨ha, hb⟩ => ?_
  simp only [h.contains_eq ha.container, h.contains_eq hb.container,
    ha.eq_iff h.copied.one_to_one hb, h.wholeDocument_eq, h.between_eq o ha hb]

end Document.Twins

end TreePointer
